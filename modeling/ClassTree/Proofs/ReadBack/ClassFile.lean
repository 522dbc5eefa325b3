/-
# ClassTree.Proofs.ReadBack.ClassFile — what class files are read back as

A class file that has been written is read with a table that backs the pool it was written with, so
its parts are read back one after another: the head of the class as it is, its members as their own,
and of the attributes of the class what their one piece tells. The bootstrap table has been looked
up ahead and says nothing about the class.
-/
import ClassTree.Proofs.Acceptance.ClassFile
import ClassTree.Proofs.ReadBack.Field
import ClassTree.Proofs.ReadBack.Method

namespace ClassTree

open Decoding Encoding Encoder
open ModifiedUtf8 (stored IsPlain isPlain_ofString)

variable {P : Pool} {t : Table}

/-! ## Attributes of classes -/

/-- What an attribute of a class changes. -/
inductive Class.Changes (c : Class) (a : Attribute) : Class → Prop
  | signature (h : a.name = AttributeName.signature) (s : Text) :
    Changes c a { c.noting a.name with signature := some s }
  | sourceFile (h : a.name = AttributeName.sourceFile) (s : Text) :
    Changes c a { c.noting a.name with sourceFile := some s }
  | annotations (visible : Bool) (h : a.name = AttributeName.annotations visible)
    (as : List AnnotationUse) (has : ∀ b ∈ as, b.visible = visible) (hseen : ∀ b ∈ as, b.IsSeen) :
    Changes c a { c.noting a.name with annotations := c.annotations ++ as }
  | innerClasses (h : a.name = AttributeName.innerClasses) (is : List InnerClass) :
    Changes c a { c.noting a.name with innerClasses := c.innerClasses ++ is }
  | enclosing (h : a.name = AttributeName.enclosingMethod) (e : EnclosingMethod)
    (he : e.name = none → e.descriptor = none) :
    Changes c a { c.noting a.name with enclosing := some e }
  | bootstrapMethods (h : a.name = AttributeName.bootstrapMethods) : Changes c a (c.noting a.name)
  | raw (h : a.name ∉ AttributeName.ofClass) :
    Changes c a { c.noting a.name with attributes := c.attributes ++ [a] }

namespace Decoding

/-- A method without a name has no descriptor. -/
theorem descriptor_eq_none_of_readEnclosingMethod {e : EnclosingMethod} {k k' : Cursor}
    (h : readEnclosingMethod t k = .ok (e, k')) : e.name = none → e.descriptor = none := by
  unfold readEnclosingMethod at h
  obtain ⟨_, _, -, h⟩ := Decoder.bind_eq_ok_iff.1 h
  obtain ⟨owner, _, -, h⟩ := Decoder.bind_eq_ok_iff.1 h
  obtain ⟨i, _, -, h⟩ := Decoder.bind_eq_ok_iff.1 h
  dsimp only at h
  split at h
  · cases h
    exact fun _ => rfl
  · obtain ⟨⟨n, d⟩, _, -, h⟩ := Decoder.bind_eq_ok_iff.1 h
    obtain ⟨name, _, -, h⟩ := Decoder.bind_eq_ok_iff.1 h
    obtain ⟨descriptor, _, -, h⟩ := Decoder.bind_eq_ok_iff.1 h
    cases h
    exact nofun

/-- Reading an attribute changes a class in the one way that the name of the attribute stands for. -/
theorem changes_of_readClassAttribute {a : Attribute} {c c' : Class}
    (h : Outline.whole (readClassAttribute t a.name a.data.length c) a.data = .ok c') :
    c.Changes a c' := by
  obtain ⟨k, hread, -⟩ := whole_eq_ok_iff.1 h
  unfold readClassAttribute at hread
  by_cases hsignature : a.name = AttributeName.signature
  · rw [if_pos hsignature] at hread
    obtain ⟨i, _, -, hread⟩ := Decoder.bind_eq_ok_iff.1 hread
    obtain ⟨s, _, -, hc⟩ := Decoder.bind_eq_ok_iff.1 hread
    cases hc
    exact .signature hsignature s
  rw [if_neg hsignature] at hread
  by_cases hsourceFile : a.name = AttributeName.sourceFile
  · rw [if_pos hsourceFile] at hread
    obtain ⟨i, _, -, hread⟩ := Decoder.bind_eq_ok_iff.1 hread
    obtain ⟨s, _, -, hc⟩ := Decoder.bind_eq_ok_iff.1 hread
    cases hc
    exact .sourceFile hsourceFile s
  rw [if_neg hsourceFile] at hread
  by_cases hvisible : a.name = AttributeName.annotations true
  · rw [if_pos hvisible] at hread
    obtain ⟨as, _, has, hc⟩ := Decoder.bind_eq_ok_iff.1 hread
    cases hc
    exact .annotations true hvisible as (visible_of_readAnnotationUses has)
      (isSeen_of_readAnnotationUses has)
  rw [if_neg hvisible] at hread
  by_cases hinvisible : a.name = AttributeName.annotations false
  · rw [if_pos hinvisible] at hread
    obtain ⟨as, _, has, hc⟩ := Decoder.bind_eq_ok_iff.1 hread
    cases hc
    exact .annotations false hinvisible as (visible_of_readAnnotationUses has)
      (isSeen_of_readAnnotationUses has)
  rw [if_neg hinvisible] at hread
  by_cases hinner : a.name = AttributeName.innerClasses
  · rw [if_pos hinner] at hread
    obtain ⟨is, _, -, hc⟩ := Decoder.bind_eq_ok_iff.1 hread
    cases hc
    exact .innerClasses hinner is
  rw [if_neg hinner] at hread
  by_cases henclosing : a.name = AttributeName.enclosingMethod
  · rw [if_pos henclosing] at hread
    obtain ⟨e, _, he, hc⟩ := Decoder.bind_eq_ok_iff.1 hread
    cases hc
    exact .enclosing henclosing e (descriptor_eq_none_of_readEnclosingMethod he)
  rw [if_neg henclosing] at hread
  by_cases hbootstrap : a.name = AttributeName.bootstrapMethods
  · rw [if_pos hbootstrap] at hread
    obtain ⟨_, _, -, hc⟩ := Decoder.bind_eq_ok_iff.1 hread
    cases hc
    exact .bootstrapMethods hbootstrap
  · rw [if_neg hbootstrap] at hread
    obtain ⟨data, _, hdata, hc⟩ := Decoder.bind_eq_ok_iff.1 hread
    cases hc
    obtain rfl := eq_of_bytes hdata
    exact .raw (by simp [AttributeName.ofClass, hsignature, hsourceFile, hvisible, hinvisible, hinner,
      henclosing, hbootstrap])

theorem concerns_classSignature :
    Concerns (readClassAttribute t) Class.signature AttributeName.signature :=
  fun a s s' hname hread => by
    cases changes_of_readClassAttribute hread with
    | signature h => exact absurd h hname
    | _ => rfl

theorem concerns_classSourceFile :
    Concerns (readClassAttribute t) Class.sourceFile AttributeName.sourceFile :=
  fun a s s' hname hread => by
    cases changes_of_readClassAttribute hread with
    | sourceFile h => exact absurd h hname
    | _ => rfl

theorem concerns_classAnnotations (visible : Bool) :
    Concerns (readClassAttribute t) (fun c => ofVisibility visible c.annotations)
      (AttributeName.annotations visible) :=
  fun a s s' hname hread => by
    cases changes_of_readClassAttribute hread with
    | annotations visible' h as has =>
      exact ofVisibility_append_of_ne has fun heq => hname (heq ▸ h)
    | _ => rfl

theorem concerns_classInnerClasses :
    Concerns (readClassAttribute t) Class.innerClasses AttributeName.innerClasses :=
  fun a s s' hname hread => by
    cases changes_of_readClassAttribute hread with
    | innerClasses h => exact absurd h hname
    | _ => rfl

theorem concerns_classEnclosing :
    Concerns (readClassAttribute t) Class.enclosing AttributeName.enclosingMethod :=
  fun a s s' hname hread => by
    cases changes_of_readClassAttribute hread with
    | enclosing h => exact absurd h hname
    | _ => rfl

/-- What a class says in front of its attributes, with the tables that it was read with, and nothing
else of it. -/
def headOf (c : Class) : Class where
  name := c.name
  access := c.access
  major := c.major
  minor := c.minor
  super := c.super
  interfaces := c.interfaces
  fields := c.fields
  methods := c.methods
  layout := { pool := c.layout.pool, bootstrap := c.layout.bootstrap }

/-- The head of a class is no business of its attributes. -/
theorem headOf_eq_of_readAll {as : List Attribute} {c c' : Class}
    (h : Attribute.readAll (readClassAttribute t) as c = .ok c') : headOf c' = headOf c := by
  refine observe_eq_of_readAll headOf h ?_
  intro a _ s s' hread
  cases changes_of_readClassAttribute hread <;> rfl

theorem keepsRaw_readClassAttribute :
    KeepsRaw (readClassAttribute t) Class.attributes AttributeName.ofClass where
  modelled a s s' hname hread := by
    cases changes_of_readClassAttribute hread with
    | raw h => exact absurd hname h
    | _ => rfl
  raw a s s' hname hread := by
    have hne {name : Text} (hmem : name ∈ AttributeName.ofClass) (h : a.name = name) : False :=
      hname (h ▸ hmem)
    cases changes_of_readClassAttribute hread with
    | raw => rfl
    | signature h => exact (hne (by decide) h).elim
    | sourceFile h => exact (hne (by decide) h).elim
    | annotations visible h => exact (hne (by cases visible <;> decide) h).elim
    | innerClasses h => exact (hne (by decide) h).elim
    | enclosing h => exact (hne (by decide) h).elim
    | bootstrapMethods h => exact (hne (by decide) h).elim

end Decoding

/-! ## The pieces of a class -/

namespace Encoding

variable {c : Class} {bootstrap : Bool}

/-- The pieces of a class that keeps no attribute as bytes that would be taken apart, by name. -/
theorem filter_classPieces_of_clear (hraw : ∀ a ∈ c.attributes, a.name ∉ AttributeName.ofClass) {n : Text}
    (hn : n ∈ AttributeName.ofClass) :
    (classPieces c bootstrap).filter (fun p => p.name = n) =
      (if AttributeName.sourceFile = n then
        pieceOf? AttributeName.sourceFile (fun t => index (Pool.addUtf8 t)) c.sourceFile else []) ++
      (if AttributeName.innerClasses = n then
        pieceIf (!c.innerClasses.isEmpty) AttributeName.innerClasses
          (listOf innerClass c.innerClasses) else []) ++
      (if AttributeName.enclosingMethod = n then
        pieceOf? AttributeName.enclosingMethod enclosingMethod c.enclosing else []) ++
      (if AttributeName.signature = n then signaturePiece c.signature else []) ++
      (annotationPieces c.annotations).filter (fun p => p.name = n) ++
      if AttributeName.bootstrapMethods = n then
        pieceIf bootstrap AttributeName.bootstrapMethods bootstrapTable else [] := by
  unfold classPieces signaturePiece
  simp only [List.filter_append, filter_pieceIf, filter_pieceOf?, filter_rawPieces hraw hn,
    List.append_nil]

variable (bootstrap) in
/-- The pieces of a class that are read by themselves. -/
theorem filter_classPieces_alone (hraw : ∀ a ∈ c.attributes, a.name ∉ AttributeName.ofClass) :
    (classPieces c bootstrap).filter (fun p => p.name = AttributeName.sourceFile) =
        pieceOf? AttributeName.sourceFile (fun t => index (Pool.addUtf8 t)) c.sourceFile ∧
      (classPieces c bootstrap).filter (fun p => p.name = AttributeName.innerClasses) =
        pieceIf (!c.innerClasses.isEmpty) AttributeName.innerClasses
          (listOf innerClass c.innerClasses) ∧
      (classPieces c bootstrap).filter (fun p => p.name = AttributeName.enclosingMethod) =
        pieceOf? AttributeName.enclosingMethod enclosingMethod c.enclosing ∧
      (classPieces c bootstrap).filter (fun p => p.name = AttributeName.signature) =
        signaturePiece c.signature := by
  refine ⟨?_, ?_, ?_, ?_⟩
  · rw [filter_classPieces_of_clear hraw (by decide), if_pos rfl, if_neg (by decide), if_neg (by decide),
      if_neg (by decide), filter_annotationPieces_of_ne _ (by decide), if_neg (by decide)]
    simp only [List.append_nil]
  · rw [filter_classPieces_of_clear hraw (by decide), if_neg (by decide), if_pos rfl, if_neg (by decide),
      if_neg (by decide), filter_annotationPieces_of_ne _ (by decide), if_neg (by decide)]
    simp only [List.append_nil, List.nil_append]
  · rw [filter_classPieces_of_clear hraw (by decide), if_neg (by decide), if_neg (by decide), if_pos rfl,
      if_neg (by decide), filter_annotationPieces_of_ne _ (by decide), if_neg (by decide)]
    simp only [List.append_nil, List.nil_append]
  · rw [filter_classPieces_of_clear hraw (by decide), if_neg (by decide), if_neg (by decide),
      if_neg (by decide), if_pos rfl, filter_annotationPieces_of_ne _ (by decide), if_neg (by decide)]
    simp only [List.append_nil, List.nil_append]

theorem filter_classPieces_annotations (hraw : ∀ a ∈ c.attributes, a.name ∉ AttributeName.ofClass)
    (visible : Bool) :
    (classPieces c bootstrap).filter (fun p => p.name = AttributeName.annotations visible) =
      (annotationPieces c.annotations).filter fun p => p.name = AttributeName.annotations visible := by
  have hother : ∀ n ∈ [AttributeName.sourceFile, AttributeName.innerClasses,
      AttributeName.enclosingMethod, AttributeName.signature, AttributeName.bootstrapMethods],
      n ≠ AttributeName.annotations visible := by cases visible <;> decide
  rw [filter_classPieces_of_clear hraw (by cases visible <;> decide), if_neg (hother _ (by simp)),
    if_neg (hother _ (by simp)), if_neg (hother _ (by simp)), if_neg (hother _ (by simp)),
    if_neg (hother _ (by simp))]
  simp only [List.append_nil, List.nil_append]

/-- The pieces of a class beside those that it keeps as bytes and its bootstrap table. -/
def modelledClassPieces (c : Class) : List Piece :=
  pieceOf? AttributeName.sourceFile (fun t => index (Pool.addUtf8 t)) c.sourceFile
    ++ pieceIf (!c.innerClasses.isEmpty) AttributeName.innerClasses (listOf innerClass c.innerClasses)
    ++ pieceOf? AttributeName.enclosingMethod enclosingMethod c.enclosing
    ++ signaturePiece c.signature ++ annotationPieces c.annotations

theorem areNamedIn_modelledClassPieces (c : Class) (bootstrap : Bool) :
    AreNamedIn AttributeName.ofClass (modelledClassPieces c ++
      pieceIf bootstrap AttributeName.bootstrapMethods bootstrapTable) := by
  refine (((((AreNamedIn.pieceOf? ?_).append (.pieceIf ?_)).append (.pieceOf? ?_)).append
    (.pieceOf? ?_)).append (.annotationPieces fun visible => ?_)).append (.pieceIf ?_)
  case refine_5 => cases visible <;> decide
  all_goals decide

theorem arePiecesAround_classPieces (hraw : ∀ a ∈ c.attributes, a.name ∉ AttributeName.ofClass) :
    ArePiecesAround AttributeName.ofClass c.attributes (classPieces c bootstrap) where
  plain n hn := AttributeName.isPlain_of_mem (by simp [hn])
  unknown := hraw
  eq := ⟨modelledClassPieces c, _, rfl, areNamedIn_modelledClassPieces c bootstrap⟩

end Encoding

/-! ## The file -/

namespace Decoding

theorem eq_of_readVersion {c : Class} {magic minor major rest : Bytes} {position : Nat}
    {found : Nat × Nat} {k : Cursor} (hmagic : Bytes.unsigned? 4 (Decoding.magic : Nat) = some magic)
    (hminor : Bytes.unsigned? 2 c.minor = some minor) (hmajor : Bytes.unsigned? 2 c.major = some major)
    (h : readVersion ⟨position, magic ++ minor ++ major ++ rest⟩ = .ok (found, k)) :
    (found.1 : Int) = c.major ∧ (found.2 : Int) = c.minor ∧ k.rest = rest := by
  rw [List.append_assoc, List.append_assoc] at h
  unfold readVersion at h
  have h := (Reads.of_unsigned? hmagic).of_bind h
  rw [if_pos rfl] at h
  have h := (Reads.unsigned (length_of_unsigned? hminor)).of_bind h
  have h := (Reads.unsigned (length_of_unsigned? hmajor)).of_bind h
  dsimp only at h
  split at h
  · cases h
    exact ⟨(exists_nat_of_unsigned? hmajor).symm, (exists_nat_of_unsigned? hminor).symm, rfl⟩
  · obtain ⟨_, _, hrefuse, -⟩ := Decoder.bind_eq_ok_iff.1 h
    cases hrefuse

/-- The name of a class that has been read. -/
theorem eq_of_readClassName (ht : Backs stored t P) {name found : Text} {bytes rest : Bytes}
    {position : Nat} {k : Cursor} (hname : Fixed P (index (Pool.addClass (some name))) bytes)
    (h : readClassName t ⟨position, bytes ++ rest⟩ = .ok (found, k)) :
    found = stored name ∧ k.rest = rest := by
  obtain ⟨i, hi, hindex⟩ := fixed_index_iff.1 hname
  unfold readClassName at h
  obtain ⟨start, _, ⟨⟩, h⟩ := Decoder.bind_eq_ok_iff.1 h
  have h := (Reads.of_unsigned? hindex).of_bind h
  have h := (ht.reads_className_some hi).of_bind h
  generalize stored name = s at h ⊢
  cases s with
  | nil => cases h
  | cons =>
    cases h
    exact ⟨rfl, rfl⟩

/-- Members that have been read in a row have been read of what shows them. -/
theorem members_of_listOf {α β : Type} {each : α → Encoder Bytes} [∀ a, Growing (each a)]
    {things : List α} {bytes rest : Bytes} (hthings : Fixed P (Encoder.listOf each things) bytes)
    {Shows : α → MemberOutline → Prop} (hmember : ∀ a part, Fixed P (each a) part →
      ∃ o, Reads (Outline.readMember t) part o ∧ Shows a o)
    {d : Decoder β} {IsRead : MemberOutline → β → Prop} (hd : ∀ k k₁ b, d k = .ok (b, k₁) →
      ∃ o, Outline.readMember t k = .ok (o, k₁) ∧ IsRead o b)
    {found : List β} {position : Nat} {k : Cursor}
    (h : Decoder.listOf d ⟨position, bytes ++ rest⟩ = .ok (found, k)) :
    List.Forall₂ (fun a b => ∃ o, Shows a o ∧ IsRead o b) things found ∧ k.rest = rest := by
  obtain ⟨count, hcount, parts, hparts, rfl⟩ := fixed_listOf_iff.1 hthings
  obtain ⟨os, hreads, hshows⟩ := Result.exists_forall₂_of_forall₂ hparts fun a _ part h =>
    hmember a part h
  obtain ⟨os', hos, hread⟩ := exists_of_listOf hd h
  rw [hshows.length_eq] at hcount
  cases (Reads.listOf hcount hreads position rest).symm.trans hos
  exact ⟨Result.forall₂_trans hshows hread fun a o b hshown hisRead => ⟨o, hshown, hisRead⟩, rfl⟩

end Decoding

namespace Encoding

variable {verify : Bool} {c : Class} {bytes : Bytes}

/-- The table that a class file is read with. -/
def Written.fullTable (w : Written verify c bytes) : Table :=
  { w.table with bootstrap := w.pool.bootstrap }

/-- A class file has been read by its parts: the members are those that the parts show, and the
attributes of the class have been read onto its head. -/
structure Written.IsReadBy (w : Written verify c bytes) (fs : List Field) (ms : List Method)
    (as : List Attribute) (r : Class) : Prop where
  fields : List.Forall₂ (fun f f' => ∃ o, MemberOutline.Shows stored w.pool f.name f.descriptor f.access
    (Piece.ordered f.attributeOrder (fieldPieces f)) o ∧ o.IsReadAsField w.fullTable f') c.fields fs
  methods : List.Forall₂ (fun m m' => ∃ o, MemberOutline.Shows stored w.pool m.name m.descriptor m.access
    (Piece.ordered m.layout.attributeOrder (methodPieces c.name verify (stackMapMajor ≤ c.major) m)) o ∧
      o.IsReadAsMethod w.fullTable m') c.methods ms
  writes : List.Forall₂ (Piece.Writes w.pool) (Piece.ordered c.layout.attributeOrder
    (classPieces c (hasBootstrap c w.pool))) as
  attributes : Attribute.readAll (readClassAttribute w.fullTable) (as.map (Attribute.mapName stored))
    { name := stored c.name, access := c.access, major := c.major, minor := c.minor
      super := storedName c.super, interfaces := c.interfaces.map (Option.map stored)
      fields := fs, methods := ms
      layout := { pool := w.fullTable.entries.toList
                  bootstrap := w.fullTable.bootstrap.toList } } = .ok r

/-- A class file that is read is read by its parts. -/
theorem Written.exists_isReadBy (w : Written verify c bytes) (hseed : Pool.IsSeed c.layout.pool)
    (hraw : ∀ a ∈ c.attributes, a.name ≠ AttributeName.bootstrapMethods) {r : Class}
    (h : Class.ofBytes bytes = .ok r) : ∃ fs ms as, w.IsReadBy fs ms as r := by
  obtain ⟨hformed, hallowed⟩ := w.wellFormed hseed
  have ht : Backs stored w.fullTable w.pool := w.backs hseed _
  have hpool := Pool.reads_pool hformed hallowed w.entries_eq
  have hscan := w.parts.reads_scanBootstrap (w.backs hseed #[]) hraw
  obtain ⟨as, hwrites, has⟩ :=
    (fixed_attributes_iff (growing_classPieces c _)).1 w.parts.fixed_attributes
  obtain ⟨i, hi, hsuper⟩ := fixed_bind_iff.1 w.parts.fixed_super
  have hbytes : bytes = w.magic ++ w.minor ++ w.major ++ (w.entries ++ w.parts.bytes) :=
    w.bytes_eq.trans (by simp only [List.append_assoc])
  unfold Class.ofBytes at h
  split at h
  case h_2 => cases h
  next found stop hrun =>
  cases h
  replace hrun : readClassFile ⟨0, bytes⟩ = .ok (r, stop) := hrun
  rw [hbytes] at hrun
  obtain ⟨⟨major, minor⟩, ⟨position, _⟩, hversion, hread⟩ := Decoder.bind_eq_ok_iff.1 hrun
  obtain ⟨hmajor, hminor, rfl⟩ := eq_of_readVersion w.magic_eq w.minor_eq w.major_eq hversion
  obtain ⟨t, k, htable, hread⟩ := Decoder.bind_eq_ok_iff.1 hread
  have hahead := hscan (position + w.entries.length) []
  rw [List.append_nil] at hahead
  cases (readTable_eq_ok (hpool position w.parts.bytes) hahead).symm.trans htable
  -- behind the pool there are the head, the members, and the attributes
  rw [Parts.bytes] at hread
  simp only [List.append_assoc] at hread
  have hread := (Reads.unsigned (length_of_unsigned? w.parts.fixed_access)).of_bind hread
  obtain ⟨name, ⟨_, _⟩, hname, hread⟩ := Decoder.bind_eq_ok_iff.1 hread
  obtain ⟨rfl, rfl⟩ := eq_of_readClassName ht w.parts.fixed_name hname
  have hread := (Reads.of_unsigned? (fixed_u2_iff.1 hsuper)).of_bind hread
  have hread := (ht.reads_classIndex hi).of_bind hread
  have hread := (reads_classNames ht w.parts.fixed_interfaces).of_bind hread
  obtain ⟨fs, ⟨_, _⟩, hfs, hread⟩ := Decoder.bind_eq_ok_iff.1 hread
  obtain ⟨hfields, rfl⟩ := members_of_listOf w.parts.fixed_fields
    (fun _ _ hpart => (isMember_of_fixed_field hpart).exists_reads ht)
    (fun _ _ _ => exists_of_readField) hfs
  obtain ⟨ms, ⟨_, _⟩, hms, hread⟩ := Decoder.bind_eq_ok_iff.1 hread
  obtain ⟨hmethods, rfl⟩ := members_of_listOf w.parts.fixed_methods
    (fun _ _ hpart => (isMember_of_fixed_method hpart).exists_reads ht)
    (fun _ _ _ => exists_of_readMethod) hms
  obtain ⟨read, k, hattributes, hread⟩ := Decoder.bind_eq_ok_iff.1 hread
  obtain ⟨_, _, ⟨⟩, hend⟩ := Decoder.bind_eq_ok_iff.1 hread
  obtain ⟨as', has', hall⟩ := exists_of_attributes (fun _ _ _ _ => inferInstance) hattributes
  have hnamed := (Outline.reads_readAttributes ht has).run_nil
  cases (hnamed _).symm.trans has'
  have hread : read = r := by
    split at hend
    · cases hend
      rfl
    · obtain ⟨_, _, ⟨⟩, -⟩ := Decoder.bind_eq_ok_iff.1 hend
  subst hread
  refine ⟨fs, ms, as, hfields, hmethods, hwrites, ?_⟩
  have haccess := exists_nat_of_unsigned? w.parts.fixed_access
  rw [← hmajor, ← hminor, haccess]
  exact hall

end Encoding

/-! ## The class -/

/-- A class in which nothing can be taken for anything else when it is read. -/
structure Class.IsClear (c : Class) : Prop where
  annotations : ∀ a ∈ c.annotations, a.IsTagged
  raw : ∀ a ∈ c.attributes, a.name ∉ AttributeName.ofClass
  fields : ∀ f ∈ c.fields, f.IsClear
  methods : ∀ m ∈ c.methods, m.IsClear

/-- What a class says beside its members has been read back. -/
structure Class.IsToldBack (c r : Class) : Prop where
  name : r.name = stored c.name
  access : r.access = c.access
  major : r.major = c.major
  minor : r.minor = c.minor
  super : r.super = storedName c.super
  interfaces : r.interfaces = c.interfaces.map (Option.map stored)
  signature : r.signature = c.signature.map stored
  sourceFile : r.sourceFile = c.sourceFile.map stored
  annotations : ∀ visible, ofVisibility visible r.annotations =
    (ofVisibility visible c.annotations).map AnnotationUse.stored
  innerClasses : r.innerClasses = c.innerClasses.map storedInner
  enclosing : r.enclosing = c.enclosing.map storedEnclosing
  raw : Attribute.AreReadBackAs c.attributes r.attributes

/-- A class has been read back. -/
structure Class.IsReadBackAs (verify : Bool) (P : Pool) (c r : Class) : Prop where
  name : r.name = stored c.name
  access : r.access = c.access
  major : r.major = c.major
  minor : r.minor = c.minor
  super : r.super = storedName c.super
  interfaces : r.interfaces = c.interfaces.map (Option.map stored)
  signature : r.signature = c.signature.map stored
  sourceFile : r.sourceFile = c.sourceFile.map stored
  annotations : ∀ visible, ofVisibility visible r.annotations =
    (ofVisibility visible c.annotations).map AnnotationUse.stored
  innerClasses : r.innerClasses = c.innerClasses.map storedInner
  enclosing : r.enclosing = c.enclosing.map storedEnclosing
  raw : Attribute.AreReadBackAs c.attributes r.attributes
  fields : List.Forall₂ Field.IsReadBackAs c.fields r.fields
  methods : List.Forall₂ (Method.IsReadBackAs c.name verify (stackMapMajor ≤ c.major) P) c.methods
    r.methods

namespace Encoding

variable {verify : Bool} {c : Class} {bytes : Bytes}

/-- The table that a class file is read with is small if the pool that is read of it is. -/
theorem Written.isSmall_fullTable (w : Written verify c bytes) (hseed : Pool.IsSeed c.layout.pool)
    (hclear : c.IsClear) {r : Class} (h : Class.ofBytes bytes = .ok r)
    (hsmall : r.layout.pool.length ≤ maxByte + 1) : w.fullTable.IsSmall := by
  have hbootstrap : ∀ a ∈ c.attributes, a.name ≠ AttributeName.bootstrapMethods := by
    rintro a ha hname
    exact hclear.raw a ha (hname ▸ by decide)
  obtain ⟨fs, ms, as, hread⟩ := w.exists_isReadBy hseed hbootstrap h
  have hpool : r.layout.pool = w.fullTable.entries.toList :=
    congrArg (fun c : Class => c.layout.pool) (headOf_eq_of_readAll hread.attributes)
  rwa [hpool, Array.length_toList] at hsmall

/-- What a class says beside its members is read back if its annotations have tags that exist. -/
theorem Written.IsReadBy.isToldBack {w : Written verify c bytes} {fs : List Field} {ms : List Method}
    {as : List Attribute} {r : Class} (hread : w.IsReadBy fs ms as r)
    (ht : Backs stored w.fullTable w.pool)
    (htagged : ∀ a ∈ c.annotations, a.IsTagged)
    (hraw : ∀ a ∈ c.attributes, a.name ∉ AttributeName.ofClass) :
    c.IsToldBack r := by
  obtain ⟨-, -, hwrites, h⟩ := hread
  obtain ⟨hsourceFile, hinnerClasses, henclosing, hsignature⟩ :=
    filter_classPieces_alone (hasBootstrap c w.pool) hraw
  have hhead := headOf_eq_of_readAll h
  exact {
    name := (congrArg Class.name hhead :)
    access := (congrArg Class.access hhead :)
    major := (congrArg Class.major hhead :)
    minor := (congrArg Class.minor hhead :)
    super := (congrArg Class.super hhead :)
    interfaces := (congrArg Class.interfaces hhead :)
    signature := signature_of_readAll hwrites h ht hsignature concerns_classSignature
      (fun s length => ⟨_, fun _ => rfl,
        readClassAttribute_of_lookup length AttributeName.signature s rfl⟩) rfl
    sourceFile := by
      have htold := observe_of_readAll hwrites h (AttributeName.isPlain_of_mem (by decide)) hsourceFile
        concerns_classSourceFile (fun s => some (stored s)) fun s _ data s₁ hdata _ => by
          rw [readClassAttribute_of_lookup _ AttributeName.sourceFile _ rfl]
          exact ⟨_, reads_utf8_of_fixed ht hdata _, rfl⟩
      rw [htold]
      cases c.sourceFile <;> rfl
    annotations := fun visible => annotations_of_readPieces hwrites h ht htagged
      (filter_classPieces_annotations hraw visible) (concerns_classAnnotations visible)
      (fun s length => ⟨_, fun _ => rfl,
        readClassAttribute_of_lookup length _ s (lookup_annotations_classReaders _ _ visible)⟩) rfl
    innerClasses := by
      have htold := observe_of_readAll hwrites h (AttributeName.isPlain_of_mem (by decide))
        (hinnerClasses.trans (pieceIf_eq_pieceOf? _ _ _)) concerns_classInnerClasses
        (fun _ => c.innerClasses.map storedInner) fun _ _ data s₁ hdata hs₁ => by
          rw [readClassAttribute_of_lookup _ AttributeName.innerClasses _ rfl]
          refine ⟨_, (reads_innerClasses ht hdata).map _, ?_⟩
          exact congrArg (· ++ _) hs₁
      exact htold.trans (elim_unless_isEmpty fun hempty => by rw [hempty, List.map_nil])
    enclosing := by
      have htold := observe_of_readAll hwrites h (AttributeName.isPlain_of_mem (by decide)) henclosing
        concerns_classEnclosing (fun e => some (storedEnclosing e)) fun e _ data s₁ hdata _ => by
          rw [readClassAttribute_of_lookup _ AttributeName.enclosingMethod _ rfl]
          exact ⟨_, (reads_readEnclosingMethod ht hdata).map _, rfl⟩
      rw [htold]
      cases c.enclosing <;> rfl
    raw := keepsRaw_readClassAttribute.areReadBackAs (arePiecesAround_classPieces hraw) hwrites
      h rfl }

/-- A class that is clear is read back if the constants that it loads have short indices. -/
theorem Written.isReadBackAs (w : Written verify c bytes) (hseed : Pool.IsSeed c.layout.pool)
    (hclear : c.IsClear)
    (hshort : ∀ m ∈ c.methods, ∀ i, .instruction i ∈ m.body → LoadsShort w.pool i) {r : Class}
    (h : Class.ofBytes bytes = .ok r) : c.IsReadBackAs verify w.pool r := by
  obtain ⟨hformed, -⟩ := w.wellFormed hseed
  have ht : Backs stored w.fullTable w.pool := w.backs hseed _
  have hsites : HasSites w.fullTable w.pool :=
    fun method k hk => hformed.getElem?_of_bootstrapIndex hk
  have hbootstrap : ∀ a ∈ c.attributes, a.name ≠ AttributeName.bootstrapMethods := by
    rintro a ha hname
    exact hclear.raw a ha (hname ▸ by decide)
  obtain ⟨fs, ms, as, hread⟩ := w.exists_isReadBy hseed hbootstrap h
  have hhead := headOf_eq_of_readAll hread.attributes
  have hrfields : r.fields = fs := congrArg Class.fields hhead
  have hrmethods : r.methods = ms := congrArg Class.methods hhead
  exact { hread.isToldBack ht hclear.annotations hclear.raw with
    fields := by
      rw [hrfields]
      have hboth := (List.forall₂_and_left _ _).2 ⟨fun _ hf => hclear.fields _ hf, hread.fields⟩
      exact hboth.imp fun f f' ⟨hf, o, hshows, hread⟩ => isReadBackAs_of_isReadAsField ht hf hshows hread
    methods := by
      rw [hrmethods]
      have hboth := (List.forall₂_and_left _ _).2
        ⟨fun m hm => (⟨hclear.methods m hm, hshort m hm⟩ : _ ∧ _), hread.methods⟩
      exact hboth.imp fun m m' ⟨⟨hm, hshort⟩, o, hshows, hread⟩ =>
        isReadBackAs_of_isReadAsMethod ht hsites hshort hm hshows hread }

end Encoding

end ClassTree
