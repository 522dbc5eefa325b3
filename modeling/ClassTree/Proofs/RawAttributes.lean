/-
# ClassTree.Proofs.RawAttributes — attributes whose indices nobody follows

An attribute that is kept as its bytes may hold indices into the constant pool. A tree carries the
bytes but not the pool, so a class that is read of a tree is written onto a pool of its own, where
such an index may mean another constant. With the pool of the class file put back as a seed, every
index means what it meant: the new pool begins with the old one.
-/
import ClassTree.Proofs.Decoding.ClassFile
import ClassTree.Proofs.Encoding.Code
import ClassTree.Proofs.Tree.Raw
import Mathlib

namespace ClassTree

open Decoding Encoding
open Decoding.Decoder (bind_eq_ok_iff)
open ModifiedUtf8 (stored)

/-! ## Raw attributes in class files -/

/-- The raw attributes of a method stand in the outline of a member, and those of its code in the
outline of the code. -/
structure MemberOutline.Keeps (t : Table) (m : Method) (member : MemberOutline) : Prop where
  attributes : List.Subperm m.attributes member.attributes
  code : m.codeAttributes ≠ [] → ∃ code, member.code? t = some (.ok code) ∧
    List.Subperm m.codeAttributes code.attributes

/-- The raw attributes of a class stand in the outline of a class file, each as often as the class
has it, with their names and bytes. -/
structure Outline.Keeps (o : Outline) (c : Class) : Prop where
  attributes : List.Subperm c.attributes o.attributes
  fields : List.Forall₂ (fun (f : Field) member => List.Subperm f.attributes member.attributes)
    c.fields o.fields
  methods : List.Forall₂ (MemberOutline.Keeps o.table) c.methods o.methods

/-- What is kept of a class is kept of every class with the same raw attributes. -/
theorem Outline.Keeps.of_sameRaw {o : Outline} {c c' : Class} (h : o.Keeps c') (hraw : c.SameRaw c') :
    o.Keeps c where
  attributes := hraw.attributes ▸ h.attributes
  fields := Result.forall₂_trans hraw.fields h.fields fun _ _ _ heq h => heq ▸ h
  methods := Result.forall₂_trans hraw.methods h.methods fun _ _ _ hraw h =>
    ⟨hraw.attributes ▸ h.attributes, hraw.codeAttributes ▸ h.code⟩

namespace Encoding

variable {P : Pool} {verify : Bool} {c : Class} {bytes : Bytes}

/-- Raw attributes are written as they are, among others and in any order. -/
theorem subperm_of_writes {order : List Text} {pieces : List Piece} {raw as : List Attribute}
    (hraw : rawPieces raw <:+: pieces)
    (h : List.Forall₂ (Piece.Writes P) (Piece.ordered order pieces) as) : List.Subperm raw as := by
  obtain ⟨before, after, rfl⟩ := hraw
  -- in the order of the pieces, the raw attributes are those behind the first ones
  obtain ⟨as', hwrites, hperm⟩ := List.perm_comp_forall₂ (ordered_perm order _).symm h
  rw [List.append_assoc] at hwrites
  have hmiddle := List.forall₂_take_append _ _ _ (List.forall₂_drop_append _ _ _ hwrites.flip)
  have heq : (as'.drop before.length).take (rawPieces raw).length = raw := by
    unfold rawPieces at hmiddle ⊢
    rw [List.forall₂_map_right_iff] at hmiddle
    rw [← List.forall₂_eq_eq_eq]
    refine hmiddle.imp ?_
    rintro ⟨name, data⟩ a ⟨hname, hdata⟩
    obtain rfl : name = a.name := hname
    obtain rfl : data = a.data := Encoder.fixed_pure_iff.1 hdata
    rfl
  have hsublist : List.Sublist raw as' := by
    rw [← heq]
    exact (List.take_sublist _ _).trans (List.drop_sublist _ _)
  exact hsublist.subperm.trans hperm.subperm

/-- Raw attributes with whole names are found as they are. -/
theorem subperm_mapName {raw as : List Attribute} (hwhole : Attribute.AreWhole raw)
    (h : List.Subperm raw as) : List.Subperm raw (as.map (Attribute.mapName stored)) := by
  have heq : raw.map (Attribute.mapName stored) = raw := by
    refine (List.map_congr_left fun a ha => ?_).trans (List.map_id raw)
    rw [Attribute.mapName, ModifiedUtf8.stored_of_isWhole (hwhole a ha)]
    rfl
  obtain ⟨as', hperm, hsublist⟩ := h
  have hmap := (hsublist.map (Attribute.mapName stored)).subperm
  exact heq ▸ (hperm.map (Attribute.mapName stored)).symm.subperm.trans hmap

/-- The raw attributes of a class stand in its class file. -/
theorem Written.exists_keeps (w : Written verify c bytes) (hseed : Pool.IsSeed c.layout.pool)
    (hraw : c.HasWholeRaw) : ∃ o, Outline.ofBytes bytes = .ok o ∧ o.table = w.table ∧ o.Keeps c := by
  obtain ⟨o, ho, hshown⟩ := w.exists_outline hseed
  have ht : Backs stored o.table w.pool := hshown.table ▸ w.backs hseed #[]
  refine ⟨o, ho, hshown.table, ?_, ?_, ?_⟩
  · obtain ⟨as, hwrites, heq⟩ := hshown.attributes
    rw [heq]
    exact subperm_mapName hraw.attributes (subperm_of_writes ⟨_, _, rfl⟩ hwrites)
  · have hall := (List.forall₂_and_left _ _).2 ⟨hraw.fields, hshown.fields⟩
    refine hall.imp ?_
    rintro f member ⟨hwhole, hshows⟩
    obtain ⟨as, hwrites, heq⟩ := hshows.attributes
    rw [heq]
    exact subperm_mapName hwhole
      (subperm_of_writes (List.suffix_append _ _).isInfix hwrites)
  · have hall := (List.forall₂_and_left _ _).2 ⟨hraw.methods, hshown.methods⟩
    refine hall.imp ?_
    rintro m member ⟨hwhole, hshows⟩
    refine ⟨?_, fun hne => ?_⟩
    · obtain ⟨as, hwrites, heq⟩ := hshows.attributes
      rw [heq]
      exact subperm_mapName hwhole.attributes
        (subperm_of_writes (List.suffix_append _ _).isInfix hwrites)
    · have hcode : m.hasCode = true := by
        unfold Method.hasCode
        rw [hwhole.maxima hne, Bool.or_true]
      obtain ⟨code, parts, hread, hparts⟩ := exists_code_of_shows ht hcode hshows
      refine ⟨code, hread, ?_⟩
      rw [hparts.attributes]
      exact subperm_mapName hwhole.codeAttributes
        (subperm_of_writes (List.suffix_append _ _).isInfix parts.writes)

/-- The pool of a class file begins with the pool of the layout. -/
theorem Written.prefix_table (w : Written verify c bytes) (hseed : Pool.IsSeed c.layout.pool) :
    c.layout.pool <+: w.table.entries.toList := by
  have hseeded := (Pool.wellFormed_seeded hseed c.layout.bootstrap).2.1
  have hbegins := w.grows.begins.entries.map (Option.map Pool.Entry.stored)
  rw [hseeded] at hbegins
  unfold Written.table
  rw [Array.toList_map]
  rcases hseed with hempty | ⟨es, hpool, hread⟩
  · rw [hempty]
    exact List.nil_prefix
  · rw [hpool] at hbegins ⊢
    -- entries that have been read are stored as they are
    have hslots : (Pool.slots es).map (Option.map Pool.Entry.stored) = Pool.slots es := by
      refine (List.map_congr_left fun e? he => ?_).trans (List.map_id _)
      cases e? with
      | none => rfl
      | some e => rw [Option.map_some, (hread e (Pool.mem_slots_iff.1 he)).stored_eq, id]
    rw [List.map_cons, Pool.seedEntries, hslots] at hbegins
    exact hbegins

end Encoding

/-! ## Through a tree -/

namespace Class

/-- A class with the pool and the bootstrap methods of another one. -/
def seededBy (c d : Class) : Class :=
  { c with layout := { c.layout with pool := d.layout.pool, bootstrap := d.layout.bootstrap } }

/-- Raw attributes come through a tree with their bytes. Where the class that is read of the tree is
written with the pool of the class file, their indices mean what they meant, too: each constant of
the class file stands at its index. Written afresh, the class keeps the bytes all the same, although
the constants that they point to may stand elsewhere then. -/
theorem keeps_of_ofTree {bytes : Bytes} {c c' : Class} {n : Tree.Node} {verify : Bool}
    (hread : ofBytes bytes = .ok c) (htree : c.toTree = .ok n) (hback : ofTree n = .ok c') :
    (∀ written, c'.toBytes verify = .ok written →
      ∃ o, Outline.ofBytes written = .ok o ∧ o.Keeps c) ∧
    ∀ written, (c'.seededBy c).toBytes verify = .ok written →
      ∃ o entries, Outline.ofBytes written = .ok o ∧ o.Keeps c ∧ Outline.poolOf bytes = .ok entries ∧
        entries.toList <+: o.table.entries.toList := by
  have hraw := sameRaw_of_ofTree htree hback
  have hwhole := (hasWholeRaw_of_ofBytes hread).of_sameRaw hraw
  refine ⟨fun written hwrite => ?_, fun written hwrite => ?_⟩
  · obtain ⟨w⟩ := written_of_toBytes hwrite
    have hlayout : c'.layout = {} := (Tree.gives_of_ofTree hback).layout
    have hseed : Pool.IsSeed c'.layout.pool := hlayout ▸ .inl rfl
    obtain ⟨o, ho, -, hkeeps⟩ := w.exists_keeps hseed hwhole
    exact ⟨o, ho, hkeeps.of_sameRaw hraw⟩
  · obtain ⟨w⟩ := written_of_toBytes hwrite
    have hseed : Pool.IsSeed c.layout.pool := isSeed_of_ofBytes hread
    obtain ⟨o, ho, htable, hkeeps⟩ := w.exists_keeps hseed { hwhole with }
    obtain ⟨entries, hpool, heq⟩ := exists_poolOf_of_ofBytes hread
    refine ⟨o, entries, ho, Outline.Keeps.of_sameRaw hkeeps { hraw with }, hpool, ?_⟩
    rw [htable, ← heq]
    exact w.prefix_table hseed

end Class

/-! ## A nest member -/

namespace Encoding

/-- The class file of a class with one nest member, the class `B`. -/
def nestFile : Bytes :=
  [0xCA, 0xFE, 0xBA, 0xBE, 0, 0, 0, 55, 0, 6, 1, 0, 1, 66, 7, 0, 1, 1, 0, 1, 65, 7, 0, 3, 1, 0, 11, 78,
    101, 115, 116, 77, 101, 109, 98, 101, 114, 115, 0, 0x21, 0, 4, 0, 0, 0, 0, 0, 0, 0, 0, 0, 1, 0, 5, 0,
    0, 0, 4, 0, 1, 0, 2]

/-- The pool of the class file. -/
def nestTable : Table where
  entries := #[none, some (.utf8 "B"), some (.type 1), some (.utf8 "A"), some (.type 3),
    some (.utf8 "NestMembers")]
  bootstrap := #[]

/-- The class. -/
def nestClass : Class where
  name := "A"
  major := 55
  super := none
  attributes := [⟨"NestMembers", [0, 1, 0, 2]⟩]
  layout := { pool := nestTable.entries.toList, attributeOrder := ["NestMembers"] }

theorem reads_utf8_nestTable : Reads (nestTable.utf8 5) [] "NestMembers" := fun _ _ => rfl

theorem unsigned?_nestName : Bytes.unsigned? 2 (5 : Nat) = some [0, 5] := by decide

theorem unsigned?_nestData :
    Bytes.unsigned? 4 (([0, 1, 0, 2] : Bytes).length : Nat) = some [0, 0, 0, 4] := by
  decide

theorem readTable_nestFile :
    readTable ⟨8, nestFile.drop 8⟩ = .ok (nestTable, ⟨38, nestFile.drop 38⟩) := by
  have hhead : ([0, 0x21, 0, 4, 0, 0] : Bytes).length = 6 := rfl
  have hscan := reads_scanBootstrap_of_ne hhead unsigned?_nestName reads_utf8_nestTable
    unsigned?_nestData (by decide)
  exact readTable_eq_ok (by cbv) (hscan.run_nil 38)

/-- The class is read of its file. -/
theorem ofBytes_nestFile : Class.ofBytes nestFile = .ok nestClass := by
  have hread : readClassFile ⟨0, nestFile⟩ = .ok (nestClass, ⟨62, []⟩) := by
    unfold readClassFile
    refine bind_eq_ok_iff.2 ⟨(55, 0), ⟨8, nestFile.drop 8⟩, by cbv, ?_⟩
    refine bind_eq_ok_iff.2 ⟨_, _, readTable_nestFile, ?_⟩
    refine bind_eq_ok_iff.2 ⟨0x21, ⟨40, nestFile.drop 40⟩, by cbv, ?_⟩
    refine bind_eq_ok_iff.2 ⟨"A", ⟨42, nestFile.drop 42⟩, by cbv, ?_⟩
    refine bind_eq_ok_iff.2 ⟨0, ⟨44, nestFile.drop 44⟩, by cbv, ?_⟩
    refine bind_eq_ok_iff.2 ⟨none, ⟨44, nestFile.drop 44⟩, by cbv, ?_⟩
    refine bind_eq_ok_iff.2 ⟨[], ⟨46, nestFile.drop 46⟩, by cbv, ?_⟩
    refine bind_eq_ok_iff.2 ⟨[], ⟨48, nestFile.drop 48⟩, by cbv, ?_⟩
    refine bind_eq_ok_iff.2 ⟨[], ⟨50, nestFile.drop 50⟩, by cbv, ?_⟩
    have hattribute : Reads (readClassAttribute nestTable "NestMembers" 4 { nestClass with
        attributes := [], layout := { pool := nestTable.entries.toList } }) [0, 1, 0, 2] nestClass := by
      rw [readClassAttribute_of_notMem 4 _ (by decide)]
      exact (Reads.bytes [0, 1, 0, 2]).map _
    have hattributes : Reads (Decoding.attributes nestTable (readClassAttribute nestTable) _)
        ([0, 1] ++ ([0, 5] ++ [0, 0, 0, 4] ++ [0, 1, 0, 2])) nestClass :=
      reads_attributes_of_utf8 unsigned?_nestName reads_utf8_nestTable unsigned?_nestData hattribute
    exact bind_eq_ok_iff.2 ⟨nestClass, ⟨62, []⟩, hattributes.run_nil 50, rfl⟩
  unfold Class.ofBytes StateT.run
  rw [hread]

/-- The class that is read of the tree is written onto a pool of its own. -/
def movedFile : Bytes :=
  [202, 254, 186, 190, 0, 0, 0, 55, 0, 4, 1, 0, 1, 65, 7, 0, 1, 1, 0, 11, 78, 101, 115, 116, 77, 101,
    109, 98, 101, 114, 115, 0, 33, 0, 2, 0, 0, 0, 0, 0, 0, 0, 0, 0, 1, 0, 3, 0, 0, 0, 4, 0, 1, 0, 2]

/-- The class has a tree and is read of it. -/
theorem exists_ofTree_nestClass :
    ∃ n, nestClass.toTree = .ok n ∧ Class.ofTree n = .ok nestClass.bare := by
  have hrenderable : nestClass.IsRenderable := by
    refine ⟨?_, by decide, by simp [nestClass]⟩
    refine ⟨by decide, by simp [nestClass], by simp [nestClass], by simp [nestClass],
      by simp [nestClass], by simp [nestClass], by simp [nestClass], ?_⟩
    simp only [nestClass, List.forall_mem_singleton]
    decide
  obtain ⟨n, hn, hread⟩ := Tree.exists_class (Class.isSound_of_ofBytes ofBytes_nestFile) hrenderable
  refine ⟨n.numbered, ?_, ?_⟩
  · simp [Class.toTree, hn]
  · rw [Class.ofTree_numbered, hread]

/-- The class is written without the pool of its file. -/
theorem toBytes_bare_nestClass : nestClass.bare.toBytes false = .ok movedFile := by
  have hrun : ∃ q, (classFile false nestClass.bare).run (Pool.seeded [] []) = .ok (movedFile, q) :=
    ⟨_, by cbv⟩
  obtain ⟨q, hrun⟩ := hrun
  exact toBytes_eq_ok hrun

/-- With the pool of its file the class is written as it was. -/
theorem toBytes_seededBy_nestClass :
    (nestClass.bare.seededBy nestClass).toBytes false = .ok nestFile := by
  have hrun : ∃ q, (classFile false (nestClass.bare.seededBy nestClass)).run
      (Pool.seeded nestClass.layout.pool []) = .ok (nestFile, q) :=
    ⟨_, by cbv⟩
  obtain ⟨q, hrun⟩ := hrun
  exact toBytes_eq_ok hrun

/-- The nest member is kept, with its pool and without. -/
theorem keeps_nestClass : Class.ofBytes nestFile = .ok nestClass ∧
    ∃ n, nestClass.toTree = .ok n ∧ Class.ofTree n = .ok nestClass.bare ∧
      nestClass.bare.toBytes false = .ok movedFile ∧
      (nestClass.bare.seededBy nestClass).toBytes false = .ok nestFile ∧
      (∃ o, Outline.ofBytes movedFile = .ok o ∧ o.Keeps nestClass) ∧
      ∃ o entries, Outline.ofBytes nestFile = .ok o ∧ o.Keeps nestClass ∧
        Outline.poolOf nestFile = .ok entries ∧ entries.toList <+: o.table.entries.toList := by
  obtain ⟨n, hn, hback⟩ := exists_ofTree_nestClass
  obtain ⟨hmoved, hseeded⟩ := Class.keeps_of_ofTree ofBytes_nestFile hn hback
  exact ⟨ofBytes_nestFile, n, hn, hback, toBytes_bare_nestClass, toBytes_seededBy_nestClass,
    hmoved _ toBytes_bare_nestClass, hseeded _ toBytes_seededBy_nestClass⟩

/-- Without its pool, the index of the nest member means another class: `B` before, `A` after. -/
theorem className_nestMember_ne : Class.ofBytes nestFile = .ok nestClass ∧
    (∃ n, nestClass.toTree = .ok n ∧ Class.ofTree n = .ok nestClass.bare) ∧
    nestClass.bare.toBytes false = .ok movedFile ∧
    nestClass.attributes = [⟨"NestMembers", [0, 1, 0, 2]⟩] ∧
    ∃ before after, Outline.poolOf nestFile = .ok before ∧ Outline.poolOf movedFile = .ok after ∧
      before[2]? = some (some (.type 1)) ∧ before[1]? = some (some (.utf8 "B")) ∧
      after[2]? = some (some (.type 1)) ∧ after[1]? = some (some (.utf8 "A")) := by
  have hbefore : Outline.poolOf nestFile = .ok nestTable.entries := by cbv
  have hafter : Outline.poolOf movedFile =
      .ok #[none, some (.utf8 "A"), some (.type 1), some (.utf8 "NestMembers")] := by cbv
  exact ⟨ofBytes_nestFile, exists_ofTree_nestClass, toBytes_bare_nestClass, rfl, _, _, hbefore, hafter,
    rfl, rfl, rfl, rfl⟩

end Encoding

end ClassTree
