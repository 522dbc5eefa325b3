/-
# ClassTree.Proofs.Acceptance.ClassFile — written class files are read

The table of constants that a class file is read with backs the pool that it was written with, and
its bootstrap methods are those of the pool. So the parts of a class file are read one after
another, if the members can be and the class keeps no attribute as bytes that the reader takes
apart.
-/
import ClassTree.Proofs.Acceptance.Bootstrap
import ClassTree.Proofs.Acceptance.Member
import ClassTree.Proofs.Decoding.ClassFile
import ClassTree.Proofs.Pool.Sound

namespace ClassTree

open Decoding Encoding Encoder
open ModifiedUtf8 (stored IsPlain isPlain_ofString)

variable {P : Pool} {t : Table} {bytes : Bytes}

namespace Encoding

/-! ## Attributes of classes -/

/-- A name that may be missing is looked up. -/
theorem reads_nameIndex (ht : Backs stored t P) {name : Option Text} {i : Nat}
    (h : Fixed P (nameIndex name) i) : Reads (t.utf8? i) [] (storedName name) := by
  have hmissing : Reads (t.utf8? 0) [] none := .pure none
  match name, h with
  | none, h =>
    obtain rfl := fixed_pure_iff.1 h
    exact hmissing
  | some [], h =>
    obtain rfl := fixed_pure_iff.1 h
    exact hmissing
  | some (c :: rest), h =>
    have hfound := fixed_addUtf8_iff.1 h
    unfold Table.utf8?
    rw [if_neg (ht.ne_zero hfound)]
    exact (ht.reads_utf8 hfound).map _

/-- An entry of the table of inner classes as it is read back. -/
def storedInner (i : InnerClass) : InnerClass where
  inner := i.inner.map stored
  outer := storedName i.outer
  name := storedName i.name
  access := i.access

/-- An entry of the table of inner classes is read. -/
theorem reads_readInnerClass (ht : Backs stored t P) {i : InnerClass}
    (h : Fixed P (innerClass i) bytes) : Reads (readInnerClass t) bytes (storedInner i) := by
  unfold innerClass at h
  simp only [fixed_bind_iff, fixed_u2_iff, fixed_pure_iff] at h
  obtain ⟨inner, hinner, outer, houter, name, hname, a, ha, b, hb, c, hc, d, hd, rfl⟩ := h
  obtain ⟨s, hs, hread⟩ := ht.reads_className hinner
  rw [storedInner, hs, exists_nat_of_unsigned? hd, List.append_assoc, List.append_assoc]
  refine (Reads.of_unsigned? ha).bind ((Reads.of_unsigned? hb).bind ((Reads.of_unsigned? hc).bind ?_))
  refine (Reads.unsigned (length_of_unsigned? hd)).bind_nil (hread.nil_bind ?_)
  exact (ht.reads_classIndex houter).nil_bind ((reads_nameIndex ht hname).map _)

theorem reads_innerClasses (ht : Backs stored t P) {is : List InnerClass}
    (h : Fixed P (Encoder.listOf innerClass is) bytes) :
    Reads (Decoder.listOf (readInnerClass t)) bytes (is.map storedInner) := by
  obtain ⟨count, hcount, parts, hparts, rfl⟩ := fixed_listOf_iff.1 h
  have hlength : (is.map storedInner).length = is.length := List.length_map _
  refine Reads.listOf (hlength ▸ hcount) ?_
  rw [List.forall₂_map_right_iff]
  exact hparts.flip.imp fun _ _ hpart => reads_readInnerClass ht hpart

/-- The method around a local class as it is read back. -/
def storedEnclosing (e : EnclosingMethod) : EnclosingMethod where
  owner := e.owner.map stored
  name := e.name.map stored
  descriptor := e.name.bind fun _ => e.descriptor.map stored

/-- The method around a local class is read. -/
theorem reads_readEnclosingMethod (ht : Backs stored t P) {e : EnclosingMethod}
    (h : Fixed P (enclosingMethod e) bytes) :
    Reads (readEnclosingMethod t) bytes (storedEnclosing e) := by
  rw [enclosingMethod_eq] at h
  simp only [fixed_bind_iff, fixed_u2_iff, fixed_pure_iff] at h
  obtain ⟨member, hmember, owner, howner, a, ha, b, hb, rfl⟩ := h
  obtain ⟨s, hs, hread⟩ := ht.reads_className howner
  rw [storedEnclosing, hs, ← List.append_nil b]
  refine (Reads.of_unsigned? ha).bind (hread.nil_bind ((Reads.of_unsigned? hb).bind ?_))
  unfold givenMember at hmember
  split at hmember
  · next name hname =>
    obtain ⟨n, hn, d, hd, hfound⟩ := fixed_addNameAndType_iff.1 hmember
    obtain ⟨descriptor, hgiven, hdescriptor⟩ := ht.of_fixed_addName hd
    have hpair : Reads (t.nameAndType member) [] (n, d) := (ht.reads_entry hfound).bind (.pure _)
    rw [if_neg (ht.ne_zero hfound), hname, hgiven]
    exact hpair.nil_bind ((ht.reads_utf8 hn).nil_bind ((ht.reads_utf8 hdescriptor).map _))
  · next hname =>
    obtain rfl := fixed_pure_iff.1 hmember
    rw [hname]
    exact .pure _

/-- The attributes of a class are read. -/
theorem readsPieces_classPieces (ht : Backs stored t P) {c : Class}
    (hannotations : ∀ a ∈ c.annotations, a.IsTagged)
    (hraw : ∀ a ∈ c.attributes, a.name ∉ AttributeName.ofClass) (bootstrap : Bool) :
    ReadsPieces P (readClassAttribute t) (fun _ => True) (classPieces c bootstrap) := by
  have hsourceFile : IsPlain AttributeName.sourceFile := isPlain_ofString (by decide)
  have hinnerClasses : IsPlain AttributeName.innerClasses := isPlain_ofString (by decide)
  have henclosing : IsPlain AttributeName.enclosingMethod := isPlain_ofString (by decide)
  refine .append (.append (.append (.append (.append (.append ?sourceFile ?innerClasses) ?enclosing)
    ?signature) ?annotations) ?raw) ?bootstrap
  case sourceFile =>
    refine .pieceOf? hsourceFile fun s _ data c hdata _ => ?_
    rw [readClassAttribute_of_lookup _ AttributeName.sourceFile _ rfl]
    exact (reads_utf8_of_fixed ht hdata _).parses trivial
  case innerClasses =>
    refine .pieceIf hinnerClasses fun _ data c hdata _ => ?_
    rw [readClassAttribute_of_lookup _ AttributeName.innerClasses _ rfl]
    exact ((reads_innerClasses ht hdata).map _).parses trivial
  case enclosing =>
    refine .pieceOf? henclosing fun e _ data c hdata _ => ?_
    rw [readClassAttribute_of_lookup _ AttributeName.enclosingMethod _ rfl]
    exact ((reads_readEnclosingMethod ht hdata).map _).parses trivial
  case signature =>
    refine .pieceOf? isPlain_signature fun s _ data c hdata _ => ?_
    rw [readClassAttribute_of_lookup _ AttributeName.signature _ rfl]
    exact (reads_utf8_of_fixed ht hdata _).parses trivial
  case annotations =>
    refine .annotations ht hannotations fun visible data c hdata _ => ?_
    rw [readClassAttribute_of_lookup _ _ _ (lookup_annotations_classReaders _ _ _)]
    exact hdata.map _ fun _ _ => trivial
  case raw =>
    refine .raw (fun n hn => AttributeName.isPlain_of_mem (by simp [hn])) hraw ?_
    intro name hname data c _
    rw [readClassAttribute_of_notMem _ _ hname]
    exact ((Reads.bytes data).map _).parses trivial
  case bootstrap =>
    -- the content has been read ahead and is skipped
    refine .pieceIf isPlain_bootstrapMethods fun _ data c hdata _ => ?_
    rw [readClassAttribute_of_lookup _ AttributeName.bootstrapMethods _ rfl, ← List.append_nil data]
    exact .of_reads (Reads.skip (by simp)) (.pure trivial)

/-! ## The file -/

/-- A decoder finds a value in an input that is just these bytes, wherever they stand. -/
def Accepts {α : Type} (d : Decoder α) (bytes : Bytes) : Prop :=
  ∀ position, ∃ found, d ⟨position, bytes⟩ = .ok found

/-- Bytes that begin with what is parsed are accepted if those behind it are. -/
theorem Accepts.of_parses {α β : Type} {d : Decoder α} {k : α → Decoder β} {rest : Bytes}
    {Q : α → Prop} (h : Parses True d bytes Q) (hk : ∀ a, Q a → Accepts (k a) rest) :
    Accepts (d >>= k) (bytes ++ rest) := by
  intro position
  obtain ⟨a, ha, hd⟩ := h.exists_eq_ok position rest
  obtain ⟨found, hfound⟩ := hk a ha (position + bytes.length)
  exact ⟨found, Decoder.bind_eq_ok_iff.2 ⟨a, _, hd, hfound⟩⟩

/-- Bytes that begin with what is read are accepted if those behind it are. -/
theorem Accepts.of_reads {α β : Type} {d : Decoder α} {k : α → Decoder β} {rest : Bytes} {a : α}
    (h : Reads d bytes a) (hk : Accepts (k a) rest) : Accepts (d >>= k) (bytes ++ rest) :=
  .of_parses (h.parses (Q := (· = a)) rfl) fun _ ha => ha ▸ hk

theorem Accepts.of_nil {α β : Type} {d : Decoder α} {k : α → Decoder β} {a : α} (h : Reads d [] a)
    (hk : Accepts (k a) bytes) : Accepts (d >>= k) bytes := .of_reads h hk

/-- The end of the input is where a class file ends. -/
theorem Accepts.at_end {α : Type} {a : α} : Accepts (do
    let after := (← get).rest.length
    unless after = 0 do Decoder.refuseHere (.trailing after)
    return a) [] :=
  fun position => ⟨(a, ⟨position, []⟩), rfl⟩

/-- The name of a class is read if there is one. -/
theorem parses_readClassName (ht : Backs stored t P) {name : Text} (hname : name ≠ [])
    (h : Fixed P (index (Pool.addClass (some name))) bytes) :
    Parses True (readClassName t) bytes fun _ => True := by
  obtain ⟨i, hi, hindex⟩ := fixed_index_iff.1 h
  obtain ⟨c, rest, hstored⟩ := List.exists_cons_of_ne_nil (ModifiedUtf8.stored_ne_nil hname)
  have hread := ht.reads_className_some hi
  rw [hstored] at hread
  rw [← List.append_nil bytes]
  exact .at_position fun start =>
    .of_reads (Reads.of_unsigned? hindex) (.nil_bind hread (.pure trivial))

/-- The magic number and the version are read if the version is one of those that are known. -/
theorem parses_readVersion {c : Class} {magic minor major : Bytes}
    (hmagic : Bytes.unsigned? 4 (Decoding.magic : Nat) = some magic)
    (hminor : Bytes.unsigned? 2 c.minor = some minor) (hmajor : Bytes.unsigned? 2 c.major = some major)
    (hversion : oldestMajor ≤ c.major ∧ c.major ≤ newestMajor) :
    Parses True readVersion (magic ++ (minor ++ major)) fun _ => True := by
  have hnat := exists_nat_of_unsigned? hmajor
  have hknown : oldestMajor ≤ major.toNat ∧ major.toNat ≤ newestMajor := by omega
  unfold readVersion
  refine .of_reads (Reads.of_unsigned? hmagic) ?_
  rw [if_pos rfl]
  refine .of_reads (Reads.unsigned (length_of_unsigned? hminor)) ?_
  rw [← List.append_nil major]
  refine .of_reads (Reads.unsigned (length_of_unsigned? hmajor)) ?_
  rw [if_pos hknown]
  exact .pure trivial

/-- The constant pool is read together with the bootstrap table behind the members. -/
theorem Accepts.of_readTable {β : Type} {k : Table → Decoder β} {entries behind : Bytes}
    {table : Array (Option Pool.Entry)} {found : Array Bootstrap}
    (hpool : Reads Table.readPool entries table)
    (hscan : Reads (scanBootstrap ⟨table, #[]⟩) behind found.toList)
    (hk : Accepts (k ⟨table, found⟩) behind) : Accepts (readTable >>= k) (entries ++ behind) := by
  intro position
  obtain ⟨a, ha⟩ := hk (position + entries.length)
  have hahead := hscan (position + entries.length) []
  rw [List.append_nil] at hahead
  exact ⟨a, Decoder.bind_eq_ok_iff.2 ⟨_, _, readTable_eq_ok (hpool position behind) hahead, ha⟩⟩

end Encoding

/-- A class whose class file is read back if it is written with a pool: its methods are read back,
its annotations are tagged, it has a name, its version is one of those that are known, and it keeps
no attribute as bytes that would be taken apart. -/
structure Class.IsReadable (P : Pool) (c : Class) : Prop where
  isTagged : c.IsTagged
  fields : ∀ f ∈ c.fields, ∀ a ∈ f.attributes, a.name ∉ AttributeName.ofField
  methods : ∀ m ∈ c.methods, Encoding.IsReadable P m
  attributes : ∀ a ∈ c.attributes, a.name ∉ AttributeName.ofClass
  name : c.name ≠ []
  version : oldestMajor ≤ c.major ∧ c.major ≤ newestMajor

namespace Encoding

/-- Things in a row are read if each of them is. -/
theorem parses_listOf {α β : Type} {each : α → Encoder Bytes} [∀ a, Growing (each a)] {things : List α}
    {d : Decoder β} (h : Fixed P (Encoder.listOf each things) bytes)
    (heach : ∀ a ∈ things, ∀ part, Fixed P (each a) part → Parses True d part fun _ => True) :
    Parses True (Decoder.listOf d) bytes fun _ => True := by
  obtain ⟨count, hcount, parts, hparts, rfl⟩ := fixed_listOf_iff.1 h
  have hread : List.Forall₂ (fun (_ : α) part => Parses True d part fun _ => True) things parts :=
    List.forall₂_iff_get.2 ⟨hparts.length_eq, fun i hi hi' =>
      heach _ (List.get_mem things ⟨i, hi⟩) _ (hparts.get hi hi')⟩
  exact (Parses.listOf hcount hread).imp fun _ _ => trivial

variable {verify : Bool} {c : Class}

/-- The class file of a readable class is read. The pool comes first; whatever refers to it
afterwards finds the entry that the writer has asked for, stored as the pool stores it, so the
members and the attributes are read one by one with their own lemmas. -/
theorem Written.exists_ofBytes (w : Written verify c bytes) (hseed : Pool.IsSeed c.layout.pool)
    (hc : c.IsReadable w.pool) : ∃ read, Class.ofBytes bytes = .ok read := by
  obtain ⟨hformed, hallowed⟩ := w.wellFormed hseed
  have ht : Backs stored { w.table with bootstrap := w.pool.bootstrap } w.pool := w.backs hseed _
  have hsites : HasSites { w.table with bootstrap := w.pool.bootstrap } w.pool :=
    fun method k hk => hformed.getElem?_of_bootstrapIndex hk
  have hraw : ∀ a ∈ c.attributes, a.name ≠ AttributeName.bootstrapMethods := by
    rintro a ha hname
    exact hc.attributes a ha (hname ▸ by simp [AttributeName.ofClass])
  have hpool := Pool.reads_pool hformed hallowed w.entries_eq
  have hscan := w.parts.reads_scanBootstrap (w.backs hseed #[]) hraw
  have hfields := parses_listOf w.parts.fixed_fields fun f hf part hpart =>
    parses_readField ht (hc.isTagged.fields f hf) (hc.fields f hf) hpart
  have hmethods := parses_listOf w.parts.fixed_methods fun m hm part hpart =>
    parses_readMethod ht hsites (hc.methods m hm) hpart
  have hinterfaces := reads_classNames ht w.parts.fixed_interfaces
  obtain ⟨i, hi, hsuper⟩ := fixed_bind_iff.1 w.parts.fixed_super
  have hsuperRead := ht.reads_classIndex hi
  obtain ⟨as, hwrites, has⟩ :=
    (fixed_attributes_iff (growing_classPieces c _)).1 w.parts.fixed_attributes
  have hattributes := readsPieces_classPieces ht hc.isTagged.annotations hc.attributes
    (hasBootstrap c w.pool)
  have haccess : Parses True Decoder.u2 w.parts.access fun _ => True :=
    (Reads.unsigned (length_of_unsigned? w.parts.fixed_access)).parses trivial
  have hversion := parses_readVersion w.magic_eq w.minor_eq w.major_eq hc.version
  have haccepts : Accepts readClassFile bytes := by
    have heq : bytes = (w.magic ++ (w.minor ++ w.major)) ++ (w.entries ++ w.parts.bytes) := by
      simp only [w.bytes_eq, List.append_assoc]
    rw [heq]
    unfold readClassFile
    refine .of_parses hversion fun version _ => .of_readTable hpool hscan ?_
    rw [Parts.bytes]
    simp only [List.append_assoc]
    refine .of_parses haccess fun access _ => ?_
    refine .of_parses (parses_readClassName ht hc.name w.parts.fixed_name) fun name _ => ?_
    refine .of_reads (Reads.of_unsigned? (fixed_u2_iff.1 hsuper)) (.of_nil hsuperRead ?_)
    refine .of_reads hinterfaces (.of_parses hfields fun fields _ => ?_)
    refine .of_parses hmethods fun methods _ => ?_
    rw [← List.append_nil w.parts.attributes]
    exact .of_parses (hattributes.parses_attributes ht hwrites has trivial) fun c _ => .at_end
  obtain ⟨⟨read, _⟩, hread⟩ := haccepts 0
  refine ⟨read, ?_⟩
  unfold Class.ofBytes
  rw [StateT.run, hread]

end Encoding

end ClassTree
