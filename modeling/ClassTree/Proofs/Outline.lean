/-
# ClassTree.Proofs.Outline — the outline of a written class file

The outline of a class file that has been written has a member for each field and each method, and
each of them has an attribute for each piece, in the order that the layout asks for.
-/
import ClassTree.Decoding.Outline
import ClassTree.Proofs.Attributes
import ClassTree.Proofs.Encoding.ClassFile
import ClassTree.Proofs.Encoding.Layout

namespace ClassTree

open Decoding Encoding Encoder
open ModifiedUtf8 (stored stored_eq_iff IsPlain)

variable {P : Pool} {g : Text → Text} {t : Table}

/-! ## Attributes -/

/-- An attribute with its name changed. -/
def Attribute.mapName (g : Text → Text) (a : Attribute) : Attribute := ⟨g a.name, a.data⟩

/-- The attributes with a plain name are those of the pieces with the name, one by one. -/
theorem forall₂_filter_named {order : List Text} {pieces : List Piece} {as : List Attribute}
    {n : Text} (hn : IsPlain n) (has : List.Forall₂ (Piece.Writes P) (Piece.ordered order pieces) as) :
    List.Forall₂ (fun p a => Fixed P p.content a.data) (pieces.filter fun p => p.name = n)
      ((as.map (Attribute.mapName stored)).filter fun a => a.name = n) := by
  have hall : List.Forall₂ (fun (p : Piece) (a : Attribute) =>
      stored p.name = a.name ∧ Fixed P p.content a.data)
      (Piece.ordered order pieces) (as.map (Attribute.mapName stored)) := by
    rw [List.forall₂_map_right_iff]
    refine has.imp ?_
    rintro p a ⟨hname, hcontent⟩
    exact ⟨congrArg stored hname.symm, hcontent⟩
  rw [← filter_ordered order pieces n]
  refine (List.rel_filter ?_ hall).imp fun p a h => h.2
  rintro p a ⟨hname, -⟩
  simp only [decide_eq_true_eq]
  rw [← hname, stored_eq_iff hn]

/-- The first attribute with a plain name is written for the first piece with the name. -/
theorem exists_named_eq_some {order : List Text} {pieces rest : List Piece} {p : Piece}
    {as : List Attribute} {n : Text} (hn : IsPlain n)
    (has : List.Forall₂ (Piece.Writes P) (Piece.ordered order pieces) as)
    (h : pieces.filter (fun p => p.name = n) = p :: rest) :
    ∃ a, Attribute.named n (as.map (Attribute.mapName stored)) = some a ∧
      Fixed P p.content a.data := by
  have hall := forall₂_filter_named hn has
  rw [h] at hall
  obtain ⟨a, found, ha, -, hfound⟩ := List.forall₂_cons_left_iff.1 hall
  refine ⟨a, ?_, ha⟩
  unfold Attribute.named
  rw [← List.head?_filter, hfound]
  rfl

theorem named_eq_none {order : List Text} {pieces : List Piece} {as : List Attribute} {n : Text}
    (hn : IsPlain n) (has : List.Forall₂ (Piece.Writes P) (Piece.ordered order pieces) as)
    (h : pieces.filter (fun p => p.name = n) = []) :
    Attribute.named n (as.map (Attribute.mapName stored)) = none := by
  have hall := forall₂_filter_named hn has
  rw [h] at hall
  unfold Attribute.named
  rw [← List.head?_filter, List.forall₂_nil_left_iff.1 hall]
  rfl

namespace Outline

theorem whole_eq_ok {α : Type} {d : Decoder α} {bytes : Bytes} {a : α} (h : Reads d bytes a) :
    whole d bytes = .ok a := by
  unfold whole
  rw [StateT.run, h.run_nil]
  rfl

theorem exists_whole_eq_ok {α : Type} {d : Decoder α} {bytes : Bytes} {Q : α → Prop}
    (h : Parses True d bytes Q) : ∃ a, whole d bytes = .ok a ∧ Q a := by
  obtain ⟨a, ha, hread⟩ | ⟨hnot, -⟩ := h 0 []
  · refine ⟨a, ?_, ha⟩
    rw [List.append_nil] at hread
    unfold whole
    rw [StateT.run, hread]
    rfl
  · exact absurd trivial hnot

/-- Attributes are found with their names and contents. -/
theorem reads_readAttributes (ht : Backs g t P) {as : List Attribute} {bytes : Bytes}
    (has : AreAttributes P as bytes) :
    Reads (readAttributes t) bytes (as.map (Attribute.mapName g)) := by
  have hthreads (as acc : List Attribute) :
      Threads (fun (a : Attribute) s s' => Reads (do
        return s ++ [(⟨g a.name, ← Decoder.bytes a.data.length⟩ : Attribute)]) a.data s')
        as acc (acc ++ as.map (Attribute.mapName g)) := by
    induction as generalizing acc with
    | nil =>
      rw [List.map_nil, List.append_nil]
      exact .nil acc
    | cons a as ih =>
      have hrest := ih (acc ++ [a.mapName g])
      rw [List.append_assoc] at hrest
      exact .cons ((Reads.bytes a.data).map fun data => acc ++ [⟨g a.name, data⟩]) hrest
  exact reads_attributes ht has (hthreads as [])

end Outline

/-! ## Members -/

/-- The flags, the name and the descriptor of a member. -/
theorem fixed_memberHead_iff {access : Int} {name descriptor : Text} {bytes : Bytes} :
    Fixed P (memberHead access name descriptor) bytes ↔
      ∃ i j, P.index[Pool.Entry.utf8 name]? = some i ∧
        P.index[Pool.Entry.utf8 descriptor]? = some j ∧
        ∃ a n d, Bytes.unsigned? 2 access = some a ∧ Bytes.unsigned? 2 (i : Nat) = some n ∧
          Bytes.unsigned? 2 (j : Nat) = some d ∧ bytes = a ++ n ++ d := by
  unfold memberHead
  simp only [fixed_bind_iff, fixed_addUtf8_iff, fixed_u2_iff, fixed_pure_iff]
  constructor
  · rintro ⟨i, hi, j, hj, a, ha, n, hn, d, hd, rfl⟩
    exact ⟨i, j, hi, hj, a, n, d, ha, hn, hd, rfl⟩
  · rintro ⟨i, j, hi, hj, a, n, d, ha, hn, hd, rfl⟩
    exact ⟨i, hi, j, hj, a, ha, n, hn, d, hd, rfl⟩

/-- A number that fits into an unsigned field is natural. -/
theorem exists_nat_of_unsigned? {width : Nat} {n : Int} {bytes : Bytes}
    (h : Bytes.unsigned? width n = some bytes) :
    n = (bytes.toNat : Int) := (Bytes.unsigned?_eq_some_iff.1 h).2

/-- A member is its head and its attributes. -/
theorem Outline.reads_readMember (ht : Backs g t P) {access : Int} {name descriptor : Text}
    {head rest : Bytes} {as : List Attribute} (hhead : Fixed P (memberHead access name descriptor) head)
    (has : AreAttributes P as rest) :
    ∃ n : Nat, access = n ∧ Reads (Outline.readMember t) (head ++ rest)
      ⟨n, g name, g descriptor, as.map (Attribute.mapName g)⟩ := by
  obtain ⟨i, j, hi, hj, a, n, d, ha, hn, hd, rfl⟩ := fixed_memberHead_iff.1 hhead
  obtain rfl := exists_nat_of_unsigned? ha
  refine ⟨_, rfl, ?_⟩
  rw [List.append_assoc, List.append_assoc]
  refine (Reads.of_unsigned? ha).bind ((Reads.of_unsigned? hn).bind (.nil_bind (ht.reads_utf8 hi) ?_))
  refine (Reads.of_unsigned? hd).bind (.nil_bind (ht.reads_utf8 hj) ?_)
  exact (Outline.reads_readAttributes ht has).map _

/-- What the outline of a member keeps of it. -/
structure MemberOutline.Shows (g : Text → Text) (P : Pool) (name descriptor : Text) (access : Int)
    (pieces : List Piece) (m : MemberOutline) : Prop where
  access : access = m.access
  name : m.name = g name
  descriptor : m.descriptor = g descriptor
  attributes : ∃ as, List.Forall₂ (Piece.Writes P) pieces as ∧
    m.attributes = as.map (Attribute.mapName g)

/-- A member is written as its head and its attributes. -/
def IsMember (P : Pool) (access : Int) (name descriptor : Text) (pieces : List Piece) (bytes : Bytes) :
    Prop :=
  ∃ head rest as, Fixed P (memberHead access name descriptor) head ∧
    List.Forall₂ (Piece.Writes P) pieces as ∧ AreAttributes P as rest ∧ bytes = head ++ rest

/-- A member is written with the attributes that it has, in the order of its layout. -/
theorem isMember_of_fixed {access : Int} {name descriptor : Text} {pieces : List Piece}
    (hpieces : SteadyPieces pieces) {order : List Text} {bytes : Bytes}
    (h : Fixed P (do
      let head ← memberHead access name descriptor
      return head ++ (← attributes pieces order)) bytes) :
    IsMember P access name descriptor (Piece.ordered order pieces) bytes := by
  have := steady_attributes hpieces order
  simp only [fixed_bind_iff, fixed_pure_iff] at h
  obtain ⟨head, hhead, rest, hrest, rfl⟩ := h
  obtain ⟨as, hwrites, has⟩ := (fixed_attributes_iff fun p hp => (hpieces p hp).toGrowing).1 hrest
  exact ⟨head, rest, as, hhead, hwrites, has, rfl⟩

theorem isMember_of_fixed_field {f : Field} {bytes : Bytes} (h : Fixed P (field f) bytes) :
    IsMember P f.access f.name f.descriptor (Piece.ordered f.attributeOrder (fieldPieces f)) bytes :=
  isMember_of_fixed (steady_fieldPieces f) h

theorem isMember_of_fixed_method {owner : Text} {verify stackMaps : Bool} {m : Method} {bytes : Bytes}
    (h : Fixed P (method owner verify stackMaps m) bytes) :
    IsMember P m.access m.name m.descriptor
      (Piece.ordered m.layout.attributeOrder (methodPieces owner verify stackMaps m)) bytes :=
  isMember_of_fixed (steady_methodPieces owner verify stackMaps m) h

theorem IsMember.exists_reads (ht : Backs g t P) {access : Int} {name descriptor : Text}
    {pieces : List Piece} {bytes : Bytes} (h : IsMember P access name descriptor pieces bytes) :
    ∃ m, Reads (Outline.readMember t) bytes m ∧ m.Shows g P name descriptor access pieces := by
  obtain ⟨head, rest, as, hhead, hwrites, has, rfl⟩ := h
  obtain ⟨n, haccess, hread⟩ := Outline.reads_readMember ht hhead has
  exact ⟨_, hread, haccess, rfl, rfl, as, hwrites, rfl⟩

/-! ## Class files -/

namespace Encoding

/-- The bootstrap table adds nothing to the pool. -/
instance growing_bootstrapTable : Growing bootstrapTable where
  grows := by
    intro p q bytes h
    rw [bootstrapTable_apply] at h
    exact Growing.grows h

/-- The attributes of a class add to the pool at most. -/
theorem growing_classPieces (c : Class) (bootstrap : Bool) :
    ∀ p ∈ classPieces c bootstrap, Growing p.content := by
  intro p hp
  unfold classPieces at hp
  rcases List.mem_append.1 hp with hp | hp
  · have hsteady {pieces : List Piece} (h : SteadyPieces pieces) (hp : p ∈ pieces) :
        Growing p.content := (h p hp).toGrowing
    refine hsteady ?_ hp
    exact .append (.append (.append (.append (.append (.pieceOf? _ _) (.pieceIf _ _))
      (.pieceOf? _ _)) (.pieceOf? _ _)) (.annotations _)) (.raw _)
  · unfold pieceIf at hp
    split at hp
    · obtain rfl := List.mem_singleton.1 hp
      exact growing_bootstrapTable
    · cases hp

variable {verify : Bool} {c : Class} {bytes : Bytes}

/-- What stands before the interfaces of a class. -/
theorem Parts.length_head {P : Pool} (parts : Parts verify c P) :
    (parts.access ++ parts.name ++ parts.super).length = 6 := by
  obtain ⟨i, -, hi⟩ := fixed_index_iff.1 parts.fixed_name
  have hsuper := parts.fixed_super
  simp only [fixed_bind_iff, fixed_u2_iff] at hsuper
  obtain ⟨j, -, hj⟩ := hsuper
  simp [length_of_unsigned? parts.fixed_access, length_of_unsigned? hi, length_of_unsigned? hj]

/-- The interfaces of a class take two bytes each behind their count. -/
theorem Parts.exists_interfaces {P : Pool} (parts : Parts verify c P) :
    ∃ count rest, Bytes.unsigned? 2 (c.interfaces.length : Nat) = some count ∧
      rest.length = 2 * c.interfaces.length ∧ parts.interfaces = count ++ rest := by
  obtain ⟨count, hcount, interfaces, hinterfaces, heq⟩ := fixed_listOf_iff.1 parts.fixed_interfaces
  refine ⟨count, interfaces.flatten, hcount, length_flatten_of_forall₂ (fun h => ?_) hinterfaces, heq⟩
  obtain ⟨i, -, hi⟩ := fixed_index_iff.1 h
  exact length_of_unsigned? hi

/-- The pool of a class file is well-formed, and all its entries can be written. -/
theorem Written.wellFormed (w : Written verify c bytes) (hseed : Pool.IsSeed c.layout.pool) :
    w.pool.WellFormed ∧ ∀ e, some e ∈ w.pool.entries → e.Allowed .all := by
  refine ⟨w.grows.wellFormed (Pool.wellFormed_seeded hseed _).1, ?_⟩
  intro e he
  rcases w.grows.mem_entries he with he | he
  · exact (Pool.isRead_of_mem_seeded hseed he).allowed
  · exact he

/-- The table of a class file as it is read back. -/
def Written.table (w : Written verify c bytes) : Table :=
  { entries := w.pool.entries.map (Option.map Pool.Entry.stored), bootstrap := #[] }

theorem Written.backs (w : Written verify c bytes) (hseed : Pool.IsSeed c.layout.pool)
    (bootstrap : Array Bootstrap) :
    Backs stored { w.table with bootstrap } w.pool :=
  backs_of_encode? (w.wellFormed hseed).1 (w.wellFormed hseed).2 w.entries_eq bootstrap

/-- What the outline of a class file keeps of the class: the pool, a member for each field and each
method, and the attributes of the class. -/
structure Written.ShownBy (w : Written verify c bytes) (o : Outline) : Prop where
  table : o.table = w.table
  fields : List.Forall₂ (fun (f : Field) member => MemberOutline.Shows stored w.pool f.name
    f.descriptor f.access (Piece.ordered f.attributeOrder (fieldPieces f)) member) c.fields o.fields
  methods : List.Forall₂ (fun (m : Method) member => MemberOutline.Shows stored w.pool m.name
    m.descriptor m.access (Piece.ordered m.layout.attributeOrder
      (methodPieces c.name verify (stackMapMajor ≤ c.major) m)) member) c.methods o.methods
  attributes : ∃ as, List.Forall₂ (Piece.Writes w.pool) (Piece.ordered c.layout.attributeOrder
    (classPieces c (hasBootstrap c w.pool))) as ∧ o.attributes = as.map (Attribute.mapName stored)

/-- A class file that has been written has an outline: the sizes in front of its lists and of its
attributes lead from one part to the next and to the end of the file. The parts that it shows are
those that were written. -/
theorem Written.exists_outline (w : Written verify c bytes) (hseed : Pool.IsSeed c.layout.pool) :
    ∃ o, Outline.ofBytes bytes = .ok o ∧ w.ShownBy o := by
  have ht : Backs stored w.table w.pool := w.backs hseed #[]
  obtain ⟨hformed, hallowed⟩ := w.wellFormed hseed
  have hhead : (w.magic ++ w.minor ++ w.major).length = 8 := by
    simp [length_of_unsigned? w.magic_eq, length_of_unsigned? w.minor_eq,
      length_of_unsigned? w.major_eq]
  have hname := w.parts.length_head
  obtain ⟨count, interfaces, hcount, hlength, heq⟩ := w.parts.exists_interfaces
  obtain ⟨fieldCount, hfieldCount, fieldParts, hfieldParts, hfields⟩ :=
    fixed_listOf_iff.1 w.parts.fixed_fields
  obtain ⟨methodCount, hmethodCount, methodParts, hmethodParts, hmethods⟩ :=
    fixed_listOf_iff.1 w.parts.fixed_methods
  obtain ⟨as, hwrites, has⟩ :=
    (fixed_attributes_iff (growing_classPieces c _)).1 w.parts.fixed_attributes
  obtain ⟨fields, hfieldReads, hfieldShows⟩ := Result.exists_forall₂_of_forall₂ hfieldParts
    fun f _ _ h => (isMember_of_fixed_field h).exists_reads ht
  obtain ⟨methods, hmethodReads, hmethodShows⟩ := Result.exists_forall₂_of_forall₂ hmethodParts
    fun m _ _ h => (isMember_of_fixed_method h).exists_reads ht
  refine ⟨⟨w.table, fields, methods, as.map (Attribute.mapName stored)⟩, ?_,
    ⟨rfl, hfieldShows, hmethodShows, as, hwrites, rfl⟩⟩
  refine Outline.whole_eq_ok ?_
  have hbytes : bytes = (w.magic ++ w.minor ++ w.major) ++ (w.entries ++
      ((w.parts.access ++ w.parts.name ++ w.parts.super) ++ (count ++ (interfaces ++
        (w.parts.fields ++ (w.parts.methods ++ w.parts.attributes)))))) := by
    refine w.bytes_eq.trans ?_
    rw [Parts.bytes, heq]
    simp only [List.append_assoc]
  refine .cast hbytes ?_
  rw [hfields, hmethods]
  refine (Reads.skip hhead).bind ((Pool.reads_pool hformed hallowed w.entries_eq).bind ?_)
  refine (Reads.skip hname).bind ((Reads.of_unsigned? hcount).bind ((Reads.skip hlength).bind ?_))
  rw [hfieldShows.length_eq] at hfieldCount
  rw [hmethodShows.length_eq] at hmethodCount
  refine (Reads.listOf hfieldCount hfieldReads).bind ((Reads.listOf hmethodCount hmethodReads).bind ?_)
  exact (Outline.reads_readAttributes ht has).map _

end Encoding

end ClassTree
