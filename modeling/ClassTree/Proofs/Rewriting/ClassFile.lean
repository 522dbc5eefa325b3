/-
# ClassTree.Proofs.Rewriting.ClassFile — class files that are written as they were

The layout of a class that has been read holds the pool and the bootstrap table of its file. A pool
that is seeded with these is the pool that the file was written with, as far as writing can tell,
provided that no text in it was joined when it was read (`Written.isSameAs_reseeded`): everything is
found at the index where it was found before, and the bytes are the same. The members and the
attributes of the class are written as they were for the pool of the file
(`Written.IsReadBy.exists_parts`), so they are for that one.
-/
import ClassTree.Proofs.Encoding.CodeTables
import ClassTree.Proofs.Encoding.Whole
import ClassTree.Proofs.Rewriting.Member
import ClassTree.Proofs.Spelling

namespace ClassTree

open Decoding Encoding Encoder
open ModifiedUtf8 (stored stored_of_isWhole)

namespace Pool

/-! ## Entries -/

/-- An entry that can be written, with a whole text if it is one, is found under the same key after
it has been read, and is written as it was. -/
theorem Entry.key_stored {e : Entry} (he : e.Allowed .all) (htext : ∀ s, e = .utf8 s → s.IsWhole)
    {bytes : Bytes} (h : e.encode? = some bytes) :
    e.stored.key = e.key ∧ e.stored.encode? = some bytes := by
  cases e with
  | utf8 s =>
    rw [Entry.stored, stored_of_isWhole (htext s rfl)]
    exact ⟨rfl, h⟩
  | irregular tag operands =>
    obtain ⟨code, body, htag, hbody, heq⟩ := Entry.encode?_eq_some_iff.1 h
    rcases he with rfl | rfl
    · rw [show Entry.body? (.irregular 1 operands) = _ from irregularBody?_text operands] at hbody
      cases hbody
    · -- a truth value in the place of a long is read as one
      obtain ⟨b, rfl, hlong⟩ := irregularBody?_long hbody
      exact ⟨rfl, Entry.encode?_eq_some_iff.2 ⟨code, body, htag, hlong, heq⟩⟩
  | _ => exact ⟨rfl, h⟩

/-- Only a text is found under the key of a text: irregular numbers are found under those of
numbers. -/
theorem Entry.eq_of_key_eq_utf8 {e : Entry} {s : Text} (h : e.key = .utf8 s) : e = .utf8 s := by
  unfold Entry.key at h
  split at h
  · split at h <;> cases h
  · split at h <;> cases h
  · exact h

/-- Slots whose entries keep their keys are found where they were. -/
theorem firstIndex?_map_stored {entries : List (Option Entry)} (key : Entry)
    (h : ∀ e, some e ∈ entries → e.stored.key = e.key) :
    firstIndex? (entries.map (Option.map Entry.stored)) key = firstIndex? entries key := by
  induction entries with
  | nil => rfl
  | cons slot entries ih =>
    have hrest := ih fun e he => h e (List.mem_cons_of_mem _ he)
    have hslot : ((slot.map Entry.stored).any fun e => e.key = key) = slot.any fun e => e.key = key := by
      cases slot with
      | none => rfl
      | some e =>
        show decide (e.stored.key = key) = decide (e.key = key)
        rw [h e List.mem_cons_self]
    unfold firstIndex? at hrest ⊢
    rw [List.map_cons, List.findIdx?_cons, List.findIdx?_cons, hslot, hrest]

/-! ## Pools that cannot be told apart -/

/-- Two pools find everything at the same index, and have the same bytes and bootstrap methods. -/
structure IsSameAs (p q : Pool) : Prop where
  index : ∀ key : Entry, q.index[key]? = p.index[key]?
  bootstrapIndex : ∀ method : Bootstrap, q.bootstrapIndex[method]? = p.bootstrapIndex[method]?
  size : q.size = p.size
  bootstrap : q.bootstrap = p.bootstrap
  encode : q.encode? = p.encode?

theorem IsSameAs.within {p q : Pool} (h : p.IsSameAs q) : p.Within q where
  index hi := (h.index _).trans hi
  bootstrapIndex hi := (h.bootstrapIndex _).trans hi

/-- The bytes of entries, one by one. -/
theorem mapM_encode?_stored {entries : List (Option Entry)} {parts : List Bytes}
    (h : ∀ e, some e ∈ entries → ∀ bytes, e.encode? = some bytes → e.stored.encode? = some bytes)
    (hparts : (entries.filterMap id).mapM Entry.encode? = some parts) :
    ((entries.map (Option.map Entry.stored)).filterMap id).mapM Entry.encode? = some parts := by
  induction entries generalizing parts with
  | nil => exact hparts
  | cons slot entries ih =>
    have hentries : ∀ e, some e ∈ entries → ∀ bytes, e.encode? = some bytes →
        e.stored.encode? = some bytes := fun e he => h e (List.mem_cons_of_mem _ he)
    cases slot with
    | none => exact ih hentries hparts
    | some e =>
      have hcons : ((some e :: entries).filterMap id).mapM Entry.encode? = do
          let part ← e.encode?
          let parts ← (entries.filterMap id).mapM Entry.encode?
          return part :: parts := List.mapM_cons
      rw [hcons] at hparts
      simp only [Option.bind_eq_bind, Option.bind_eq_some_iff, Option.pure_def,
        Option.some.injEq] at hparts
      obtain ⟨part, hpart, rest, hrest, rfl⟩ := hparts
      have hstored := h e List.mem_cons_self part hpart
      have hothers := ih hentries hrest
      show (e.stored :: (entries.map (Option.map Entry.stored)).filterMap id).mapM Entry.encode? = _
      rw [List.mapM_cons, hstored, hothers]
      rfl

/-- A pool of whole texts is the same after it has been written, read and seeded. -/
theorem isSameAs_seeded {p : Pool} (hp : p.WellFormed) (hallowed : ∀ e, some e ∈ p.entries →
    e.Allowed .all) (hwhole : ∀ s, some (.utf8 s) ∈ p.entries → s.IsWhole) {bytes : Bytes}
    (h : p.encode? = some bytes) :
    p.IsSameAs (seeded (p.entries.map (Option.map Entry.stored)).toList p.bootstrap.toList) := by
  have hread : Reads Table.readPool bytes (p.entries.map (Option.map Entry.stored)) :=
    reads_pool hp hallowed h
  have hseed : IsSeed (p.entries.map (Option.map Entry.stored)).toList := isSeed_of_readPool (hread 0 [])
  obtain ⟨hformed, hentries, hbootstrap⟩ := wellFormed_seeded hseed p.bootstrap.toList
  have hencode : p.encode? = do
      let count ← Bytes.unsigned? 2 (p.size : Nat)
      let parts ← (p.entries.toList.filterMap id).mapM Entry.encode?
      return count ++ parts.flatten := rfl
  rw [hencode] at h
  simp only [Option.bind_eq_bind, Option.bind_eq_some_iff, Option.pure_def, Option.some.injEq] at h
  obtain ⟨count, hcount, parts, hparts, rfl⟩ := h
  -- every entry has bytes, since the pool has
  have hbytes : ∀ e, some e ∈ p.entries → ∃ part, e.encode? = some part := by
    intro e he
    have hmem : e ∈ p.entries.toList.filterMap id :=
      List.mem_filterMap.2 ⟨some e, Array.mem_toList_iff.2 he, rfl⟩
    obtain ⟨part, -, hpart⟩ := Result.exists_of_mem_left (forall₂_of_mapM_eq_some hparts) hmem
    exact ⟨part, hpart⟩
  have hkey : ∀ e, some e ∈ p.entries.toList → e.stored.key = e.key := by
    intro e he
    have hmem := Array.mem_toList_iff.1 he
    obtain ⟨part, hpart⟩ := hbytes e hmem
    exact (Entry.key_stored (hallowed e hmem) (fun s hs => hwhole s (hs ▸ hmem)) hpart).1
  have hsame : ∀ e, some e ∈ p.entries.toList → ∀ bytes, e.encode? = some bytes →
      e.stored.encode? = some bytes := by
    intro e he bytes hbytes
    have hmem := Array.mem_toList_iff.1 he
    exact (Entry.key_stored (hallowed e hmem) (fun s hs => hwhole s (hs ▸ hmem)) hbytes).2
  have hlist : (seeded (p.entries.map (Option.map Entry.stored)).toList
      p.bootstrap.toList).entries.toList =
      p.entries.toList.map (Option.map Entry.stored) := by
    obtain ⟨es, hes⟩ := hp.shape
    rw [hentries, Array.toList_map, hes]
    rfl
  have hsize : (seeded (p.entries.map (Option.map Entry.stored)).toList p.bootstrap.toList).size =
      p.size := by
    unfold size
    rw [← Array.length_toList, hlist, List.length_map, Array.length_toList]
  exact {
    index := fun key => by rw [hformed.index, hp.index, hlist, firstIndex?_map_stored key hkey]
    bootstrapIndex := fun method => by rw [hformed.bootstrapIndex, hp.bootstrapIndex, hbootstrap]
    size := hsize
    bootstrap := Array.toList_inj.1 hbootstrap
    encode := by
      rw [hencode]
      unfold encode?
      rw [hsize, hlist, mapM_encode?_stored hsame hparts, hparts] }

end Pool

namespace Encoding

variable {c : Class} {bytes : Bytes}

/-- The pool that a class file is written with is the one that the class read of it seeds. -/
theorem Written.isSameAs_reseeded (w : Written false c bytes) (hseed : Pool.IsSeed c.layout.pool)
    (hwhole : c.IsWhole) :
    w.pool.IsSameAs (Pool.seeded w.fullTable.entries.toList w.fullTable.bootstrap.toList) :=
  Pool.isSameAs_seeded (w.wellFormed hseed).1 (w.wellFormed hseed).2
    (fun _ hs => isWhole_of_mem_pool hwhole hseed w hs) w.entries_eq

/-- A text that is found in the pool of a whole class is read back as it is. -/
theorem Written.stored_of_index (w : Written false c bytes) (hseed : Pool.IsSeed c.layout.pool)
    (hwhole : c.IsWhole) {s : Text} {i : Nat} (h : w.pool.index[Pool.Entry.utf8 s]? = some i) :
    stored s = s := by
  rw [(w.wellFormed hseed).1.index] at h
  obtain ⟨e, he, hkey⟩ := Pool.getElem?_of_firstIndex? h
  obtain rfl : e = .utf8 s := Pool.Entry.eq_of_key_eq_utf8 hkey
  have hmem : some (Pool.Entry.utf8 s) ∈ w.pool.entries :=
    Array.mem_toList_iff.1 (List.mem_of_getElem? he)
  exact stored_of_isWhole (isWhole_of_mem_pool hwhole hseed w hmem)

/-! ## Attributes of classes -/

section Attributes

variable {P : Pool} {t : Table} {as : List Attribute} {c r : Class}

/-- A name that may be missing is found as what it is read as. -/
theorem fixed_nameIndex_stored (hP : P.KeepsTexts) {name : Option Text} {i : Nat}
    (h : Fixed P (nameIndex name) i) : Fixed P (nameIndex (storedName name)) i := by
  cases name with
  | none => exact h
  | some s =>
    cases s with
    | nil => exact h
    | cons c rest =>
      have hsame : stored (c :: rest) = c :: rest := hP (fixed_addUtf8_iff.1 h)
      show Fixed P (nameIndex (some (stored (c :: rest)))) i
      rw [hsame]
      exact h

/-- An inner class is written as it was. -/
theorem fixed_innerClass_stored (hP : P.KeepsTexts) {i : InnerClass} {bytes : Bytes}
    (h : Fixed P (innerClass i) bytes) : Fixed P (innerClass (storedInner i)) bytes := by
  unfold innerClass at *
  obtain ⟨inner, hinner, h⟩ := fixed_bind_iff.1 h
  obtain ⟨outer, houter, h⟩ := fixed_bind_iff.1 h
  obtain ⟨name, hname, hrest⟩ := fixed_bind_iff.1 h
  have hsame : i.inner.map stored = i.inner := map_stored_of_fixed_addClass hP hinner
  have hinner' : Fixed P (pooled (Pool.addClass (storedInner i).inner)) inner := by
    show Fixed P (pooled (Pool.addClass (i.inner.map stored))) inner
    rw [hsame]
    exact hinner
  exact fixed_bind_iff.2 ⟨inner, hinner', fixed_bind_iff.2 ⟨outer, fixed_classIndex_stored hP houter,
    fixed_bind_iff.2 ⟨name, fixed_nameIndex_stored hP hname, hrest⟩⟩⟩

/-- The method around a class is written as it was. -/
theorem fixed_enclosingMethod_stored (hP : P.KeepsTexts) {e : EnclosingMethod} {bytes : Bytes}
    (h : Fixed P (enclosingMethod e) bytes) : Fixed P (enclosingMethod (storedEnclosing e)) bytes := by
  rw [enclosingMethod_eq] at *
  obtain ⟨member, hmember, h⟩ := fixed_bind_iff.1 h
  obtain ⟨owner, howner, hrest⟩ := fixed_bind_iff.1 h
  have hsame : e.owner.map stored = e.owner := map_stored_of_fixed_addClass hP howner
  refine fixed_bind_iff.2 ⟨member, ?_, fixed_bind_iff.2 ⟨owner, ?_, hrest⟩⟩
  · obtain ⟨owner, name, descriptor⟩ := e
    cases name with
    | none => exact hmember
    | some n =>
      obtain ⟨hname, hdescriptor⟩ := stored_of_fixed_addNameAndType hP hmember
      show Fixed P (pooled (Pool.addNameAndType (stored n) (descriptor.map stored))) member
      rw [hname, hdescriptor]
      exact hmember
  · show Fixed P (pooled (Pool.addClass (e.owner.map stored))) owner
    rw [hsame]
    exact howner

/-- What a class says in its attributes is written as it was. -/
theorem forall₂_rewrites_modelledClassPieces (ht : Backs stored t P) (hP : P.KeepsTexts)
    (htagged : ∀ a ∈ c.annotations, a.IsTagged) (htold : c.IsToldBack r) :
    List.Forall₂ (Piece.Rewrites P as) (modelledClassPieces c) (modelledClassPieces r) := by
  refine List.rel_append (List.rel_append (List.rel_append (List.rel_append ?sourceFile ?innerClasses)
    ?enclosing) ?signature) ?annotations
  case sourceFile =>
    exact forall₂_rewrites_pieceOf? _ htold.sourceFile fun _ _ _ _ _ => fixed_index_stored hP
  case innerClasses =>
    refine forall₂_rewrites_pieceIf ?_ fun _ a _ _ hwrite => ?_
    · rw [htold.innerClasses, List.isEmpty_map]
    · rw [htold.innerClasses]
      exact fixed_listOf_map (fun i _ _ hpart => fixed_innerClass_stored hP hpart) hwrite
  case enclosing =>
    exact forall₂_rewrites_pieceOf? _ htold.enclosing fun _ _ _ _ _ => fixed_enclosingMethod_stored hP
  case signature => exact forall₂_rewrites_signaturePiece hP htold.signature
  case annotations => exact forall₂_rewrites_annotationPieces ht hP htagged htold.annotations

end Attributes

/-! ## The parts of a class file -/

/-- The parts of a class file are written for any pool that finds all that its own finds and has the
same bootstrap methods. -/
theorem Parts.fixed_body {verify : Bool} {P Q : Pool} (parts : Parts verify c P) (hwithin : P.Within Q)
    (hbootstrap : Q.bootstrap = P.bootstrap) : Fixed Q (body verify c) parts.bytes := by
  obtain ⟨super, hsuper, hsuperIndex⟩ := fixed_bind_iff.1 parts.fixed_super
  have hflag : hasBootstrap c Q = hasBootstrap c P := by
    unfold hasBootstrap
    rw [hbootstrap]
  have hattributes : Fixed Q (Encoding.attributes
      (classPieces c (hasBootstrap c Q)) c.layout.attributeOrder)
      parts.attributes := by
    rw [hflag]
    exact (steadyWith_classAttributes P.bootstrap c _).again rfl parts.fixed_attributes hbootstrap hwithin
  unfold body
  refine bind_eq_ok_iff.2 ⟨parts.access, Q, fixed_u2_iff.2 parts.fixed_access, ?_⟩
  refine bind_eq_ok_iff.2 ⟨parts.name, Q, parts.fixed_name.within hwithin, ?_⟩
  refine bind_eq_ok_iff.2 ⟨super, Q, hsuper.within hwithin, ?_⟩
  refine bind_eq_ok_iff.2 ⟨parts.super, Q, hsuperIndex.within hwithin, ?_⟩
  refine bind_eq_ok_iff.2 ⟨parts.interfaces, Q, parts.fixed_interfaces.within hwithin, ?_⟩
  refine bind_eq_ok_iff.2 ⟨parts.fields, Q, parts.fixed_fields.within hwithin, ?_⟩
  refine bind_eq_ok_iff.2 ⟨parts.methods, Q, parts.fixed_methods.within hwithin, ?_⟩
  exact bind_eq_ok_iff.2 ⟨Q, Q, rfl, bind_eq_ok_iff.2 ⟨parts.attributes, Q, hattributes, rfl⟩⟩

/-- For a pool that has bytes and finds all that a class needs, the class file is the header, the
bytes of the pool and what is written behind it. -/
theorem fixed_classFile {Q : Pool} {c : Class} {magic minor major entries behind : Bytes}
    (hmagic : Bytes.unsigned? 4 (Decoding.magic : Nat) = some magic)
    (hminor : Bytes.unsigned? 2 c.minor = some minor) (hmajor : Bytes.unsigned? 2 c.major = some major)
    (hentries : Q.encode? = some entries) (hbody : Fixed Q (body false c) behind) :
    Fixed Q (classFile false c) (magic ++ minor ++ major ++ entries ++ behind) := by
  have hsize : ¬ Q.size > maxPoolSize := by
    have hcounted := hentries
    unfold Pool.encode? at hcounted
    obtain ⟨count, hcount, -⟩ := Option.bind_eq_some_iff.1 hcounted
    obtain ⟨hlength, hvalue⟩ := Bytes.unsigned?_eq_some_iff.1 hcount
    have hlt : count.toNat < 256 ^ 2 := hlength ▸ Bytes.toNat_lt count
    unfold maxPoolSize
    omega
  unfold classFile
  refine bind_eq_ok_iff.2 ⟨behind, Q, hbody, ?_⟩
  rw [get_bind_apply, if_neg hsize]
  refine bind_eq_ok_iff.2 ⟨magic, Q, fixed_u4_iff.2 hmagic, ?_⟩
  refine bind_eq_ok_iff.2 ⟨minor, Q, fixed_u2_iff.2 hminor, ?_⟩
  refine bind_eq_ok_iff.2 ⟨major, Q, fixed_u2_iff.2 hmajor, ?_⟩
  exact bind_eq_ok_iff.2 ⟨entries, Q, lift_eq_ok_iff.2 ⟨Pool.encode_eq_ok_iff.2 hentries, rfl⟩, rfl⟩

/-- A class whose parts are those of a class file has the same file, for any pool that cannot be
told apart from that of the file. -/
theorem Written.fixed_classFile (w : Written false c bytes) {r : Class} (hminor : r.minor = c.minor)
    (hmajor : r.major = c.major) (parts : Parts false r w.pool) (hbytes : parts.bytes = w.parts.bytes)
    {Q : Pool} (hsame : w.pool.IsSameAs Q) : Fixed Q (classFile false r) bytes := by
  have hbody := parts.fixed_body hsame.within hsame.bootstrap
  rw [hbytes] at hbody
  have hfile := Encoding.fixed_classFile w.magic_eq (hminor ▸ w.minor_eq) (hmajor ▸ w.major_eq)
    (hsame.encode.trans w.entries_eq) hbody
  rw [← w.bytes_eq] at hfile
  exact hfile

/-- The pieces of a class that have the name of its bootstrap table. -/
theorem filter_classPieces_bootstrapMethods (hraw : ∀ a ∈ c.attributes, a.name ∉ AttributeName.ofClass)
    (bootstrap : Bool) :
    (classPieces c bootstrap).filter (fun p => p.name = AttributeName.bootstrapMethods) =
      pieceIf bootstrap AttributeName.bootstrapMethods bootstrapTable := by
  rw [filter_classPieces_of_clear hraw (by decide), if_neg (by decide), if_neg (by decide),
    if_neg (by decide), if_neg (by decide), filter_annotationPieces_of_ne _ (by decide), if_pos rfl]
  simp only [List.nil_append]

/-- A class file has an attribute with the name of the bootstrap table if it has that table. -/
theorem contains_bootstrapMethods {P : Pool} {order : List Text} {as : List Attribute} {bootstrap : Bool}
    (hraw : ∀ a ∈ c.attributes, a.name ∉ AttributeName.ofClass)
    (hwrites : List.Forall₂ (Piece.Writes P) (Piece.ordered order (classPieces c bootstrap)) as)
    (has : as.map (Attribute.mapName stored) = as) :
    (as.map Attribute.name).contains AttributeName.bootstrapMethods = bootstrap := by
  have hown := forall₂_filter_named (n := AttributeName.bootstrapMethods)
    (AttributeName.isPlain_of_mem (by decide)) hwrites
  rw [has, filter_classPieces_bootstrapMethods hraw] at hown
  rw [Bool.eq_iff_iff, List.contains_iff_mem]
  constructor
  · intro hmem
    obtain ⟨a, ha, hname⟩ := List.mem_map.1 hmem
    have hmem' : a ∈ as.filter fun a => a.name = AttributeName.bootstrapMethods :=
      List.mem_filter.2 ⟨ha, decide_eq_true hname⟩
    obtain ⟨p, hp, -⟩ := Result.exists_of_mem_right hown hmem'
    unfold pieceIf at hp
    split at hp
    · assumption
    · cases hp
  · intro hbootstrap
    rw [hbootstrap] at hown
    obtain ⟨a, rest, -, -, heq⟩ := List.forall₂_cons_left_iff.1 hown
    have hmem : a ∈ as.filter fun a => a.name = AttributeName.bootstrapMethods :=
      heq ▸ List.mem_cons_self
    obtain ⟨ha, hname⟩ := List.mem_filter.1 hmem
    exact List.mem_map.2 ⟨a, ha, of_decide_eq_true hname⟩

/-- The parts of a class file are those of the class that is read of it. -/
theorem Written.IsReadBy.exists_parts {w : Written false c bytes} {fs : List Field} {ms : List Method}
    {as : List Attribute} {r : Class} (hread : w.IsReadBy fs ms as r)
    (ht : Backs stored w.fullTable w.pool) (hdrawn : w.fullTable.IsDrawn)
    (hsites : HasSites w.fullTable w.pool) (hP : w.pool.KeepsTexts)
    (htold : c.IsToldBack r) (htagged : ∀ a ∈ c.annotations, a.IsTagged)
    (hraw : ∀ a ∈ c.attributes, a.name ∉ AttributeName.ofClass) (hfields : ∀ f ∈ c.fields, f.IsClear)
    (hmethods : ∀ m ∈ c.methods, m.IsRewritable w.pool) (hsound : r.IsSound) :
    ∃ parts : Parts false r w.pool, parts.bytes = w.parts.bytes := by
  have hhead := headOf_eq_of_readAll hread.attributes
  have hrfields : r.fields = fs := congrArg Class.fields hhead
  have hrmethods : r.methods = ms := congrArg Class.methods hhead
  obtain ⟨as', hwrites', has⟩ :=
    (fixed_attributes_iff (growing_classPieces c _)).1 w.parts.fixed_attributes
  obtain rfl : as' = as :=
    List.right_unique_forall₂' (fun _ _ _ ha hb => ha.unique hb) hwrites' hread.writes
  have hnames := has.map_mapName hP
  have hall := hread.attributes
  rw [hnames] at hall
  have hnotes (a : Attribute) (s s' : Class) (h : Outline.whole (readClassAttribute w.fullTable a.name
      a.data.length s) a.data = .ok s') :
      s'.layout.attributeOrder = s.layout.attributeOrder ++ [a.name] := by
    cases changes_of_readClassAttribute h <;> rfl
  have horder : r.layout.attributeOrder = as'.map Attribute.name := order_of_readAll hnotes hall
  have hkept : r.attributes = as'.filter fun a => a.name ∉ AttributeName.ofClass :=
    keepsRaw_readClassAttribute.observe_eq hall
  -- the order that has been read names the table of call sites exactly if the table was written
  have hflag : hasBootstrap r w.pool = hasBootstrap c w.pool := by
    have hcontains := contains_bootstrapMethods hraw hread.writes hnames
    rw [← horder] at hcontains
    rw [hasBootstrap, hcontains, hasBootstrap, ← Bool.or_assoc, Bool.or_self]
  have hname : r.name = c.name := by
    obtain ⟨i, hi, -⟩ := fixed_index_iff.1 w.parts.fixed_name
    exact htold.name.trans (Option.some.inj (map_stored_of_fixed_addClass hP hi))
  have hinterfaces : r.interfaces = c.interfaces :=
    htold.interfaces.trans (map_stored_of_fixed_classNames hP w.parts.fixed_interfaces)
  obtain ⟨super, hsuper, hsuperIndex⟩ := fixed_bind_iff.1 w.parts.fixed_super
  -- the attributes are written in the order that they were read in, each as its piece or as it is
  have hagain := forall₂_writes_again hread.writes (areNamedIn_modelledClassPieces c _) hraw
    (forall₂_rewrites_modelledClassPieces ht hP htagged htold)
    (forall₂_rewrites_pieceIf rfl fun _ _ _ _ h => h)
  rw [← horder, ← hkept] at hagain
  exact ⟨{
    access := w.parts.access
    name := w.parts.name
    super := w.parts.super
    interfaces := w.parts.interfaces
    fields := w.parts.fields
    methods := w.parts.methods
    attributes := w.parts.attributes
    fixed_access := by
      rw [htold.access]
      exact w.parts.fixed_access
    fixed_name := by
      rw [hname]
      exact w.parts.fixed_name
    fixed_super := by
      rw [htold.super]
      exact fixed_bind_iff.2 ⟨super, fixed_classIndex_stored hP hsuper, hsuperIndex⟩
    fixed_interfaces := by
      rw [hinterfaces]
      exact w.parts.fixed_interfaces
    fixed_fields := by
      have hboth := (List.forall₂_and_left _ _).2 ⟨fun _ hf => hfields _ hf, hread.fields⟩
      rw [hrfields]
      exact fixed_listOf_again hboth (fun f f' part ⟨hclear, o, hshows, hisRead⟩ hpart =>
        fixed_field_again ht hP hclear hshows hisRead hpart) w.parts.fixed_fields
    fixed_methods := by
      have hsounds : ∀ m ∈ ms, m.IsSound := fun m hm => hsound.methods m (hrmethods ▸ hm)
      have hboth := (List.forall₂_and_left _ _).2 ⟨fun _ hm => hmethods _ hm,
        ((List.forall₂_and_left _ _).2 ⟨hsounds, hread.methods.flip⟩).flip⟩
      rw [hrmethods, hname, htold.major]
      exact fixed_listOf_again hboth (fun m m' part ⟨hm, hsound, o, hshows, hisRead⟩ hpart =>
        fixed_method_again ht hdrawn hsites hP hm hshows hisRead hsound hpart) w.parts.fixed_methods
    fixed_attributes := by
      rw [hflag]
      exact (fixed_attributes_iff (growing_classPieces r _)).2 ⟨as', hagain, has⟩ }, rfl⟩

end Encoding

/-! ## The class -/

/-- Nothing that a class says is lost in its file. Its texts are whole, its annotations have tags
that exist, and no attribute that is kept as bytes has the name of one that is taken apart; the pool
that it brings along has been read; and its members are so too, the methods for the pool that the
file gets. -/
structure Class.IsRewritable (c : Class) : Prop where
  whole : c.IsWhole
  pool : c.HasReadPool
  annotations : ∀ a ∈ c.annotations, a.IsTagged
  raw : ∀ a ∈ c.attributes, a.name ∉ AttributeName.ofClass
  fields : ∀ f ∈ c.fields, f.IsClear
  methods : ∀ bytes P, (classFile false c).run (Pool.seeded c.layout.pool c.layout.bootstrap) =
      .ok (bytes, P) →
    ∀ m ∈ c.methods, m.IsRewritable P

/-- A class file that is read is written again, byte by byte, if nothing that its class said is lost
in it. The class is written without verification, with the pool, the order of attributes and the
line tables that its layout remembers; what is read of the bytes has a layout that leads to the same
indices, so each part of the file is written from the same operands. What may be lost is left out by
`IsRewritable`: annotation values with tags that no reader knows, and names that the writer makes
longer than the reader finds them. -/
theorem Class.toBytes_eq_of_ofBytes {c r : Class} {bytes : Bytes} (hc : c.IsRewritable)
    (hwrite : c.toBytes false = .ok bytes) (hread : Class.ofBytes bytes = .ok r) :
    r.toBytes false = .ok bytes := by
  obtain ⟨w⟩ := written_of_toBytes hwrite
  have hseed := hc.pool.isSeed
  have hP : w.pool.KeepsTexts := fun hi => w.stored_of_index hseed hc.whole hi
  have ht : Backs stored w.fullTable w.pool := w.backs hseed _
  have hsites : HasSites w.fullTable w.pool :=
    fun method k hk => (w.wellFormed hseed).1.getElem?_of_bootstrapIndex hk
  have hbootstrap : ∀ a ∈ c.attributes, a.name ≠ AttributeName.bootstrapMethods := by
    rintro a ha hname
    exact hc.raw a ha (hname ▸ by decide)
  obtain ⟨fs, ms, as, hparts⟩ := w.exists_isReadBy hseed hbootstrap hread
  have htold := hparts.isToldBack ht hc.annotations hc.raw
  have hlayout : r.layout.pool = w.fullTable.entries.toList ∧
      r.layout.bootstrap = w.fullTable.bootstrap.toList := by
    have hhead := headOf_eq_of_readAll hparts.attributes
    exact ⟨congrArg (fun c : Class => c.layout.pool) hhead,
      congrArg (fun c : Class => c.layout.bootstrap) hhead⟩
  have hdrawn : w.fullTable.IsDrawn := by
    obtain ⟨o, ho, t, hisRead⟩ := exists_isReadAs_of_ofBytes hread
    obtain ⟨o', ho', hshown⟩ := w.exists_outline hseed
    obtain rfl := Except.ok.inj (ho.symm.trans ho')
    have htable : t = w.fullTable := by
      rw [hisRead.table, hshown.table, hlayout.2]
      rfl
    exact htable ▸ isDrawn_of_isReadAs hread ho hisRead
  obtain ⟨parts, hbytes⟩ := hparts.exists_parts ht hdrawn hsites hP htold hc.annotations hc.raw hc.fields
    (hc.methods _ _ w.run) (isSound_of_ofBytes hread)
  have hsame := w.isSameAs_reseeded hseed hc.whole
  rw [← hlayout.1, ← hlayout.2] at hsame
  exact toBytes_eq_ok (w.fixed_classFile htold.minor htold.major parts hbytes hsame)

/-! ## Tables in no order, written again -/

/-- The method with tables in no order says nothing that is lost. -/
theorem isRewritable_shuffledMethod (P : Pool) : shuffledMethod.IsRewritable P where
  isTagged := ⟨nofun, nofun, nofun⟩
  raw := nofun
  code _ := {
    families := by
      intro i hi
      simp only [shuffledMethod, List.mem_cons, reduceCtorEq, Item.instruction.injEq, List.not_mem_nil,
        or_false, false_or] at hi
      rcases hi with rfl | rfl <;> rfl
    keys := by
      intro i hi
      simp only [shuffledMethod, List.mem_cons, reduceCtorEq, Item.instruction.injEq, List.not_mem_nil,
        or_false, false_or] at hi
      rcases hi with rfl | rfl <;> trivial
    frames := by simp [shuffledMethod]
    raw := nofun
    -- the two variables differ in the slot
    places := fun layout _ => by simp [shuffledMethod, LocalVariable.place]
    signaturesLast := by simp [shuffledMethod, HasSignaturesLast] }

theorem isRewritable_shuffledClass : shuffledClass.IsRewritable where
  whole := {
    name := by decide
    super := nofun
    interfaces := nofun
    signature := nofun
    sourceFile := nofun
    annotations := nofun
    innerClasses := nofun
    enclosing := nofun
    attributes := nofun
    fields := nofun
    methods := fun m hm => by
      obtain rfl := List.mem_singleton.1 hm
      exact {
        name := by decide
        descriptor := by decide
        signature := nofun
        exceptions := nofun
        names := nofun
        parameters := nofun
        items := by simp [shuffledMethod, Item.IsWhole, Instruction.IsWhole]
        handlers := nofun
        localVariables := fun v hv => by
          have hf : ("f" : Text).IsWhole := by decide
          simp only [shuffledMethod, List.mem_cons, List.not_mem_nil, or_false] at hv
          rcases hv with rfl | rfl <;>
            exact ⟨hf, fun s hs => Option.some.inj hs ▸ hf, fun s hs => Option.some.inj hs ▸ hf⟩
        annotations := nofun
        default := nofun
        attributes := nofun
        codeAttributes := nofun } }
  pool := .inr ⟨shuffledFile, _, Class.ofBytes_shuffledFile, rfl⟩
  annotations := nofun
  raw := nofun
  fields := nofun
  methods := fun _ P _ m hm => by
    obtain rfl := List.mem_singleton.1 hm
    exact isRewritable_shuffledMethod P

theorem exists_ofBytes_gatheredFile : ∃ r, Class.ofBytes gatheredFile = .ok r := by
  obtain ⟨w⟩ := written_of_toBytes toBytes_shuffledClass
  have htagged : shuffledMethod.IsTagged := (isRewritable_shuffledMethod w.pool).isTagged
  have hbody : LegibleBody (shuffledMethod.body.dropLast ++ [.instruction (.plain .return_)]) := by
    refine .concat (by decide) ?_ ?_
    · simp [shuffledMethod, Instruction.HasTargets]
    · simp [shuffledMethod]
  have hlegible : shuffledMethod.IsLegible :=
    ⟨hbody, fun _ _ => ⟨nofun, nofun, nofun⟩, nofun, fun _ => nofun⟩
  refine w.exists_ofBytes isRewritable_shuffledClass.pool.isSeed {
    isTagged := ⟨nofun, nofun, fun m hm => ?_⟩
    fields := nofun
    methods := fun m hm => ?_
    attributes := nofun
    name := by decide
    version := by decide }
  · obtain rfl := List.mem_singleton.1 hm
    exact htagged
  · have hsound := (Class.isSound_of_ofBytes Class.ofBytes_shuffledFile).methods m hm
    obtain rfl := List.mem_singleton.1 hm
    exact .of_isLegible _ hsound htagged hlegible ⟨[], nofun, "V", .inr rfl, by decide⟩

/-- The class that is read is written again. -/
theorem exists_toBytes_gatheredFile : shuffledClass.IsRewritable ∧
    shuffledClass.toBytes false = .ok gatheredFile ∧
    ∃ r, Class.ofBytes gatheredFile = .ok r ∧ r.toBytes false = .ok gatheredFile := by
  obtain ⟨r, hread⟩ := exists_ofBytes_gatheredFile
  exact ⟨isRewritable_shuffledClass, toBytes_shuffledClass, r, hread,
    Class.toBytes_eq_of_ofBytes isRewritable_shuffledClass toBytes_shuffledClass hread⟩

/-! ## Tags that do not exist -/

/-- Constants among which one text is found more than once. -/
def misreadConstants : List Pool.Entry :=
  List.replicate 90 (.utf8 "A") ++ .utf8 "B" :: (List.replicate 165 (.utf8 "A") ++
    [.type 1, .utf8 (AttributeName.annotations true)])

/-- A pool of them. -/
def misreadPool : List (Option Pool.Entry) := none :: misreadConstants.map some

/-- A class whose first annotation has a value with the letter of an enumeration. When it is read,
the letter of the next value is the first byte of an index. -/
def misreadClass (pool : List (Option Pool.Entry)) : Class where
  name := "A"
  super := none
  annotations := [⟨"A", true, [("A", .scalar (.unknown "e") (.text "A"))]⟩,
    ⟨"A", true, [("A", .scalar (.unknown [1]) (.text "B")), ("A", .scalar .text (.text "A"))]⟩]
  layout := { pool := pool }

/-- The class that is read of its file. -/
def misread (pool : List (Option Pool.Entry)) : Class where
  name := "A"
  super := none
  annotations := [⟨"A", true, [("A", .enum "A" "A")]⟩,
    ⟨"A", true, [("A", .array [.scalar .text (.text "A")])]⟩]
  layout := { pool := pool, attributeOrder := [AttributeName.annotations true] }

/-- The bytes of the pool. -/
def misreadEntries : Bytes := [1, 3] ++ (misreadConstants.map fun e => e.encode?.getD []).flatten

/-- The bytes of the annotations, as they are written at first or again. -/
def misreadAnnotations (again : Bool) : Bytes :=
  [0, 2] ++ ([0, 1] ++ ([0, 1] ++ ([0, 1] ++ [101, 0, 1, 0, 1]))) ++
    if again then [0, 1, 0, 1, 0, 1, 91, 0, 1, 115, 0, 1] else [0, 2, 0, 1, 1, 0, 91, 0, 1, 115, 0, 1]

/-- What is behind the pool. -/
def misreadBody (again : Bool) : Bytes :=
  [0, 33, 1, 1, 0, 0, 0, 0, 0, 0, 0, 0, 0, 1, 1, 2, 0, 0, 0, 25] ++ misreadAnnotations again

/-- The class file, as it is written at first or again. -/
def misreadFile (again : Bool) : Bytes :=
  [202, 254, 186, 190] ++ [0, 0] ++ [0, 52] ++ misreadEntries ++ misreadBody again

/-- The constants are those that a class file can have. None of them takes two slots, and each has
bytes. -/
theorem isRead_of_mem_misreadConstants {e : Pool.Entry} (h : e ∈ misreadConstants) :
    e.IsRead ∧ e.isWide = false ∧ e.encode? = some (e.encode?.getD []) := by
  have htext {s : Text} (hs : s.IsWhole) (hencode : (Pool.Entry.utf8 s).encode?.isSome) :
      (Pool.Entry.utf8 s).IsRead ∧ (Pool.Entry.utf8 s).isWide = false ∧
        (Pool.Entry.utf8 s).encode? = some ((Pool.Entry.utf8 s).encode?.getD []) := by
    obtain ⟨bytes, hbytes⟩ := Option.isSome_iff_exists.1 hencode
    exact ⟨hs, rfl, by rw [hbytes, Option.getD_some]⟩
  unfold misreadConstants at h
  simp only [List.mem_append, List.mem_cons, List.not_mem_nil, or_false, List.mem_replicate] at h
  rcases h with ⟨-, rfl⟩ | rfl | ⟨-, rfl⟩ | rfl | rfl
  · exact htext (by decide) (by decide)
  · exact htext (by decide) (by decide)
  · exact htext (by decide) (by decide)
  · exact ⟨trivial, rfl, by decide⟩
  · exact htext (by decide) (by decide)

/-- Constants of one slot each fill as many slots. -/
theorem slots_eq_map {es : List Pool.Entry} (h : ∀ e ∈ es, e.isWide = false) :
    Pool.slots es = es.map some := by
  induction es with
  | nil => rfl
  | cons e es ih =>
    have hhead : e.isWide = false := h e List.mem_cons_self
    have htail := ih fun e he => h e (List.mem_cons_of_mem _ he)
    unfold Pool.slots at htail ⊢
    rw [List.flatMap_cons, htail, hhead]
    rfl

/-- The pool is one that a class file can have. -/
theorem isSeed_misreadPool : Pool.IsSeed misreadPool := by
  refine .inr ⟨misreadConstants, ?_, fun e he => (isRead_of_mem_misreadConstants he).1⟩
  rw [slots_eq_map fun e he => (isRead_of_mem_misreadConstants he).2.1]
  rfl

/-- The pool that it seeds has these entries, and no bootstrap methods. -/
theorem seeded_misreadPool : (Pool.seeded misreadPool []).WellFormed ∧
    (Pool.seeded misreadPool []).entries.toList = misreadPool ∧
    (Pool.seeded misreadPool []).bootstrap = #[] := by
  obtain ⟨hformed, hentries, hbootstrap⟩ := Pool.wellFormed_seeded isSeed_misreadPool []
  exact ⟨hformed, hentries, Array.toList_inj.1 hbootstrap⟩

/-- Constants that have bytes are written one by one. -/
theorem mapM_encode?_eq_some {es : List Pool.Entry} (h : ∀ e ∈ es, e.encode? = some (e.encode?.getD [])) :
    es.mapM Pool.Entry.encode? = some (es.map fun e => e.encode?.getD []) := by
  induction es with
  | nil => rfl
  | cons e es ih =>
    rw [List.mapM_cons, h e List.mem_cons_self, ih fun e he => h e (List.mem_cons_of_mem _ he)]
    rfl

theorem encode_misreadPool : (Pool.seeded misreadPool []).encode? = some misreadEntries := by
  obtain ⟨-, hentries, -⟩ := seeded_misreadPool
  have hsize : (Pool.seeded misreadPool []).size = 259 := by
    unfold Pool.size
    rw [← Array.length_toList, hentries]
    simp only [misreadPool, misreadConstants, List.length_cons, List.length_map, List.length_append,
      List.length_replicate, List.length_nil]
  have hfilter : misreadPool.filterMap id = misreadConstants := by
    unfold misreadPool
    rw [List.filterMap_cons_none rfl, List.filterMap_map]
    exact List.filterMap_some
  unfold Pool.encode?
  rw [hsize, hentries, hfilter, mapM_encode?_eq_some fun e he => (isRead_of_mem_misreadConstants he).2.2]
  rfl

/-- A pool that finds the constants where they stand, and has no others. -/
def misreadFinds : Pool := { Pool.empty with
  index := ((((∅ : Std.HashMap Pool.Entry Nat).insert (.utf8 "A") 1).insert (.utf8 "B") 91).insert
    (.type 1) 257).insert (.utf8 (AttributeName.annotations true)) 258 }

theorem within_misreadPool : misreadFinds.Within (Pool.seeded misreadPool []) where
  index {key i} h := by
    obtain ⟨hformed, hentries, -⟩ := seeded_misreadPool
    rw [hformed.index, hentries]
    have hA : Pool.firstIndex? misreadPool (.utf8 "A") = some 1 := by decide +kernel
    have hB : Pool.firstIndex? misreadPool (.utf8 "B") = some 91 := by decide +kernel
    have hclass : Pool.firstIndex? misreadPool (.type 1) = some 257 := by decide +kernel
    have hname : Pool.firstIndex? misreadPool (.utf8 (AttributeName.annotations true)) = some 258 := by
      decide +kernel
    unfold misreadFinds at h
    simp only [Std.HashMap.getElem?_insert, beq_iff_eq] at h
    split at h
    · next heq => rw [← heq, hname, h]
    · split at h
      · next heq => rw [← heq, hclass, h]
      · split at h
        · next heq => rw [← heq, hB, h]
        · split at h
          · next heq => rw [← heq, hA, h]
          · simp at h
  bootstrapIndex h := by
    simp [misreadFinds, Pool.empty] at h

/-- What the class says is written behind a pool that finds its constants. -/
theorem body_misreadClass (pool : List (Option Pool.Entry)) :
    body false (misreadClass pool) misreadFinds = .ok (misreadBody false, misreadFinds) := by cbv

theorem body_misread (pool : List (Option Pool.Entry)) :
    body false (misread pool) misreadFinds = .ok (misreadBody true, misreadFinds) := by cbv

/-- What is written behind the pool makes the class file. -/
theorem toBytes_of_body_misreadFinds {c : Class} {again : Bool} (hversion : c.minor = 0 ∧ c.major = 52)
    (hlayout : c.layout.pool = misreadPool ∧ c.layout.bootstrap = [])
    (h : body false c misreadFinds = .ok (misreadBody again, misreadFinds)) :
    c.toBytes false = .ok (misreadFile again) := by
  obtain ⟨-, parts, hparts⟩ := parts_of_body h
  have hbody := parts.fixed_body within_misreadPool seeded_misreadPool.2.2
  rw [← hparts] at hbody
  have hminor : Bytes.unsigned? 2 c.minor = some [0, 0] := by
    rw [hversion.1]
    decide
  have hmajor : Bytes.unsigned? 2 c.major = some [0, 52] := by
    rw [hversion.2]
    decide
  have hmagic : Bytes.unsigned? 4 (Decoding.magic : Nat) = some [202, 254, 186, 190] := by decide
  have hfile := fixed_classFile hmagic hminor hmajor encode_misreadPool hbody
  rw [← hlayout.1, ← hlayout.2] at hfile
  exact toBytes_eq_ok hfile

theorem toBytes_misreadClass : (misreadClass misreadPool).toBytes false = .ok (misreadFile false) :=
  toBytes_of_body_misreadFinds ⟨rfl, rfl⟩ ⟨rfl, rfl⟩ (body_misreadClass misreadPool)

theorem toBytes_misread : (misread misreadPool).toBytes false = .ok (misreadFile true) :=
  toBytes_of_body_misreadFinds ⟨rfl, rfl⟩ ⟨rfl, rfl⟩ (body_misread misreadPool)

/-- The table of the constants. -/
def misreadTable : Table := ⟨misreadPool.toArray, #[]⟩

/-- The bytes of the pool are read. -/
theorem reads_misreadEntries : Reads Table.readPool misreadEntries misreadTable.entries := by
  obtain ⟨hformed, hentries, -⟩ := seeded_misreadPool
  have hpool : (Pool.seeded misreadPool []).entries = misreadTable.entries := Array.toList_inj.1 hentries
  have hisRead : ∀ e, some e ∈ misreadPool → e.IsRead := by
    intro e he
    obtain ⟨⟩ | ⟨_, he⟩ := he
    obtain ⟨e', he', heq⟩ := List.mem_map.1 he
    obtain rfl := Option.some.inj heq
    exact (isRead_of_mem_misreadConstants he').1
  have hallowed : ∀ e, some e ∈ (Pool.seeded misreadPool []).entries → e.Allowed .all := by
    intro e he
    rw [hpool] at he
    exact (hisRead e (List.mem_toArray.1 he)).allowed
  have hread := Pool.reads_pool hformed hallowed encode_misreadPool
  have hstored : misreadPool.map (Option.map Pool.Entry.stored) = misreadPool := by
    conv_rhs => rw [← List.map_id misreadPool]
    refine List.map_congr_left fun slot hslot => ?_
    cases slot with
    | none => rfl
    | some e => exact congrArg some (hisRead e hslot).stored_eq
  rw [hpool] at hread
  have htable : misreadTable.entries.map (Option.map Pool.Entry.stored) = misreadTable.entries := by
    apply Array.toList_inj.1
    rw [Array.toList_map]
    exact hstored
  rw [htable] at hread
  exact hread

theorem getElem?_misreadTable (i : Nat) : misreadTable.entries[i]? = misreadPool[i]? :=
  List.getElem?_toArray

/-- The text is found at three of its indices. -/
theorem spells_misreadTable : Pool.Spells misreadTable.entries (.utf8 "A") [0, 1] ∧
    Pool.Spells misreadTable.entries (.utf8 "A") [0, 2] ∧
    Pool.Spells misreadTable.entries (.utf8 "A") [1, 0] := by
  have hone : misreadPool[1]? = some (some (.utf8 "A")) := by decide +kernel
  have htwo : misreadPool[2]? = some (some (.utf8 "A")) := by decide +kernel
  have hlast : misreadPool[256]? = some (some (.utf8 "A")) := by decide +kernel
  exact ⟨⟨1, (getElem?_misreadTable 1).trans hone, by decide⟩,
    ⟨2, (getElem?_misreadTable 2).trans htwo, by decide⟩,
    ⟨256, (getElem?_misreadTable 256).trans hlast, by decide⟩⟩

theorem reads_misreadName : Reads (misreadTable.utf8 258) [] (AttributeName.annotations true) := by
  have hat : misreadPool[258]? = some (some (.utf8 (AttributeName.annotations true))) := by decide +kernel
  exact misreadTable.reads_text ((getElem?_misreadTable 258).trans hat)

theorem reads_misreadClassName : Reads (misreadTable.className 257) [] (some "A") := by
  have hclass : misreadPool[257]? = some (some (.type 1)) := by decide +kernel
  have htext : misreadPool[1]? = some (some (.utf8 "A")) := by decide +kernel
  unfold Table.className
  rw [if_neg (by decide)]
  exact (misreadTable.reads_entry ((getElem?_misreadTable 257).trans hclass)).bind_nil
    ((misreadTable.reads_text ((getElem?_misreadTable 1).trans htext)).map some)

theorem reads_misreadAnnotations : Reads (readAnnotationUses misreadTable true) (misreadAnnotations false)
    (misread misreadPool).annotations := by
  obtain ⟨hfirst, hsecond, hlast⟩ := spells_misreadTable
  have hone : Bytes.unsigned? 2 ((1 : Nat) : Int) = some [0, 1] := by decide
  have htwo : Bytes.unsigned? 2 ((2 : Nat) : Int) = some [0, 2] := by decide
  apply reads_annotationUses
  -- the enumeration takes the type of the second annotation for its constant, so the number of its
  -- values is read as its type
  refine ⟨[0, 2], [[0, 1, 0, 1, 0, 1, 101, 0, 1, 0, 1], [0, 2, 0, 1, 1, 0, 91, 0, 1, 115, 0, 1]], htwo,
    .cons ⟨rfl, ?enumeration⟩ (.cons ⟨rfl, ?array⟩ .nil), rfl⟩
  case enumeration =>
    exact ⟨[0, 1], [0, 1], [[0, 1, 101, 0, 1, 0, 1]], hfirst, hone,
      ⟨[0, 1], [101, 0, 1, 0, 1], [], hfirst,
      ⟨[0, 1], [0, 1], hfirst, hfirst, rfl⟩, rfl, rfl⟩, rfl⟩
  case array =>
    -- the letter that does not exist is half of the index of a name, and the index behind it half a
    -- letter
    have hscalar : (ElementValue.scalar .text (.text "A")).IsSpelled misreadTable.entries true
        [115, 0, 1] :=
      ⟨115, _, [0, 1], by decide, .text (by decide) "A", hfirst, rfl⟩
    exact ⟨[0, 2], [0, 1], [[1, 0, 91, 0, 1, 115, 0, 1]], hsecond, hone,
      ⟨[1, 0], [91, 0, 1, 115, 0, 1], [],
      hlast, ⟨[0, 1], [[115, 0, 1]], hone, ⟨[115, 0, 1], [], hscalar, rfl, rfl⟩, rfl⟩, rfl, rfl⟩, rfl⟩

theorem unsigned?_misreadAnnotations :
    Bytes.unsigned? 4 ((misreadAnnotations false).length : Nat) = some [0, 0, 0, 25] := by decide

theorem unsigned?_misreadName : Bytes.unsigned? 2 (258 : Nat) = some [1, 2] := by decide

theorem readTable_misreadFile : readTable ⟨8, misreadEntries ++ misreadBody false⟩ =
    .ok (misreadTable, ⟨8 + misreadEntries.length, misreadBody false⟩) := by
  have hhead : ([0, 33, 1, 1, 0, 0] : Bytes).length = 6 := rfl
  have hscan := reads_scanBootstrap_of_ne hhead unsigned?_misreadName reads_misreadName
    unsigned?_misreadAnnotations (by decide)
  exact readTable_eq_ok (reads_misreadEntries 8 (misreadBody false)) (hscan.run_nil _)

theorem reads_misreadAttributes :
    Reads (Decoding.attributes misreadTable (readClassAttribute misreadTable)
    { name := "A", super := none, layout := { pool := misreadPool } })
    ([0, 1] ++ ([1, 2] ++ [0, 0, 0, 25] ++ misreadAnnotations false)) (misread misreadPool) := by
  have hattribute : Reads (readClassAttribute misreadTable (AttributeName.annotations true)
      (misreadAnnotations false).length { name := "A", super := none, layout := { pool := misreadPool } })
      (misreadAnnotations false) (misread misreadPool) := by
    rw [readClassAttribute_of_lookup _ _ _ (lookup_annotations_classReaders _ _ _)]
    exact reads_misreadAnnotations.map _
  exact reads_attributes_of_utf8 unsigned?_misreadName reads_misreadName
    unsigned?_misreadAnnotations hattribute

theorem ofBytes_misreadFile : Class.ofBytes (misreadFile false) = .ok (misread misreadPool) := by
  -- the place behind the pool is kept as a name, so that no list of its length is compared
  have hread (start : Nat) (hstart : start = 8 + misreadEntries.length) :
      readClassFile ⟨0, misreadFile false⟩ = .ok (misread misreadPool, ⟨start + 45, []⟩) := by
    have htable := readTable_misreadFile
    rw [← hstart] at htable
    have hname : readClassName misreadTable ⟨start + 2, (misreadBody false).drop 2⟩ =
        .ok ("A", ⟨start + 4, (misreadBody false).drop 4⟩) :=
      Decoder.bind_eq_ok_iff.2 ⟨start + 2, _, rfl, Decoder.bind_eq_ok_iff.2 ⟨257, _, rfl,
        Decoder.bind_eq_ok_iff.2 ⟨some "A", _, reads_misreadClassName (start + 4) _, rfl⟩⟩⟩
    have hversion (rest : Bytes) : readVersion
        ⟨0, [202, 254, 186, 190] ++ ([0, 0] ++ ([0, 52] ++ rest))⟩ =
        .ok ((52, 0), ⟨8, rest⟩) := by cbv
    unfold misreadFile
    rw [List.append_assoc, List.append_assoc, List.append_assoc]
    refine Decoder.bind_eq_ok_iff.2 ⟨(52, 0), _, hversion _, ?_⟩
    refine Decoder.bind_eq_ok_iff.2 ⟨_, _, htable, ?_⟩
    refine Decoder.bind_eq_ok_iff.2 ⟨0x21, ⟨start + 2, (misreadBody false).drop 2⟩, rfl, ?_⟩
    refine Decoder.bind_eq_ok_iff.2 ⟨"A", ⟨start + 4, (misreadBody false).drop 4⟩, hname, ?_⟩
    refine Decoder.bind_eq_ok_iff.2 ⟨0, ⟨start + 6, (misreadBody false).drop 6⟩, rfl, ?_⟩
    refine Decoder.bind_eq_ok_iff.2 ⟨none, ⟨start + 6, (misreadBody false).drop 6⟩, rfl, ?_⟩
    refine Decoder.bind_eq_ok_iff.2 ⟨[], ⟨start + 8, (misreadBody false).drop 8⟩, rfl, ?_⟩
    refine Decoder.bind_eq_ok_iff.2 ⟨[], ⟨start + 10, (misreadBody false).drop 10⟩, rfl, ?_⟩
    refine Decoder.bind_eq_ok_iff.2 ⟨[], ⟨start + 12, (misreadBody false).drop 12⟩, rfl, ?_⟩
    exact Decoder.bind_eq_ok_iff.2 ⟨misread misreadPool, ⟨start + 45, []⟩,
      reads_misreadAttributes.run_nil (start + 12), rfl⟩
  unfold Class.ofBytes StateT.run
  rw [hread _ rfl]

/-- The texts of the class are whole. -/
theorem isWhole_misreadClass (pool : List (Option Pool.Entry)) : (misreadClass pool).IsWhole where
  name := show Text.IsWhole "A" by decide
  super := fun _ h => by cases h
  interfaces := fun _ h => by cases h
  signature := fun _ h => by cases h
  sourceFile := fun _ h => by cases h
  annotations := fun a ha => by
    have hA : ("A" : Text).IsWhole := by decide
    have hB : ("B" : Text).IsWhole := by decide
    have htext {s : Text} (hs : s.IsWhole) : ∀ s', Constant.text s = .text s' → s'.IsWhole := by
      rintro _ ⟨⟩
      exact hs
    simp only [misreadClass, List.mem_cons, List.not_mem_nil, or_false] at ha
    rcases ha with rfl | rfl
    · exact ⟨hA, hA, htext hA, trivial⟩
    · exact ⟨hA, hA, htext hB, hA, htext hA, trivial⟩
  innerClasses := fun _ h => by cases h
  enclosing := fun _ h => by cases h
  attributes := fun _ h => by cases h
  fields := fun _ h => by cases h
  methods := fun _ h => by cases h

/-- Without tags that exist the class that is read is written as another file. -/
theorem toBytes_misread_ne : (misreadClass misreadPool).IsWhole ∧ (misreadClass misreadPool).HasReadPool ∧
    (misreadClass misreadPool).layout.bootstrap = [] ∧ (misreadClass misreadPool).fields = [] ∧
    (misreadClass misreadPool).methods = [] ∧ (misreadClass misreadPool).attributes = [] ∧
    (misreadClass misreadPool).toBytes false = .ok (misreadFile false) ∧
    Class.ofBytes (misreadFile false) = .ok (misread misreadPool) ∧
    (misread misreadPool).toBytes false = .ok (misreadFile true) ∧
    misreadFile true ≠ misreadFile false := by
  have hpool : (misreadClass misreadPool).HasReadPool := .inr ⟨_, _, ofBytes_misreadFile, rfl⟩
  refine ⟨isWhole_misreadClass _, hpool, rfl, rfl, rfl, rfl, toBytes_misreadClass, ofBytes_misreadFile,
    toBytes_misread, fun heq => ?_⟩
  have hbody : misreadBody true = misreadBody false := List.append_cancel_left heq
  exact absurd hbody (by decide)

end ClassTree
