/-
# ClassTree.Proofs.Acceptance — class files of trees can be read

A class that has been read of a tree is sound and tagged and has a name. So its class file is read,
if the class is legible, of a version that is known and with well-formed descriptors. No more than
that is asked: neither the tree nor the writer has to have been made with the reader in view.

What makes a class illegible is not looked at on the way from a tree to a class file. A class that
keeps bytes under the name of an attribute that is taken apart is written as it is, and so is a jump
behind the last instruction where nothing has to be verified; their class files are refused.
-/
import ClassTree.Proofs.Acceptance.ClassFile
import ClassTree.Proofs.Tree.Raw
import ClassTree.Proofs.Tree.RoundTrip
import ClassTree.Proofs.Tree.Tagged

namespace ClassTree

open Decoding Encoding
open Decoding.Decoder (bind_eq_error_iff)

namespace Class

/-- A class of a tree is readable if it is legible, and its version and its descriptors can be read.
-/
theorem isReadable_of_ofTree {n : Tree.Node} {c : Class} (htree : ofTree n = .ok c)
    (hversion : oldestMajor ≤ c.major ∧ c.major ≤ newestMajor)
    (hdescriptors : ∀ m ∈ c.methods, Descriptor.IsMethod m.descriptor) (hlegible : c.IsLegible)
    (P : Pool) : c.IsReadable P where
  isTagged := (isTagged_of_ofTree htree).1
  fields := hlegible.fields
  methods m hm := .of_isLegible P ((isSound_of_ofTree htree).methods m hm)
    ((isTagged_of_ofTree htree).1.methods m hm) (hlegible.methods m hm) (hdescriptors m hm)
  attributes := hlegible.attributes
  name := (isTagged_of_ofTree htree).2
  version := hversion

/-- The class file of a class of a tree is read, whether it has been verified or not, if the class
is legible, its version is known and the descriptors of its methods are well-formed. A tree may name
versions, descriptors and opaque attributes that no reader accepts; apart from these the writer
emits nothing that the reader refuses, whatever offsets, counts and indices it has chosen. -/
theorem exists_ofBytes_of_ofTree {n : Tree.Node} {c : Class} {verify : Bool} {bytes : Bytes}
    (htree : ofTree n = .ok c) (hwrite : c.toBytes verify = .ok bytes)
    (hversion : oldestMajor ≤ c.major ∧ c.major ≤ newestMajor)
    (hdescriptors : ∀ m ∈ c.methods, Descriptor.IsMethod m.descriptor) (hlegible : c.IsLegible) :
    ∃ read, ofBytes bytes = .ok read := by
  obtain ⟨w⟩ := written_of_toBytes hwrite
  have hlayout : c.layout = {} := (Tree.gives_of_ofTree htree).layout
  have hseed : Pool.IsSeed c.layout.pool := hlayout ▸ .inl rfl
  exact w.exists_ofBytes hseed (isReadable_of_ofTree htree hversion hdescriptors hlegible _)

end Class

/-! ## Small classes

Classes without a superclass whose methods have nothing but a body. -/

/-- A static method with a given body and room for one value. -/
def idleMethod (body : List Item) : Method where
  access := 8
  name := "f"
  descriptor := "()V"
  maxima := some ⟨1, 0⟩
  body

/-- A class with methods with given bodies, and with some raw attributes. -/
def idleClass (bodies : List (List Item)) (attributes : List Attribute) : Class where
  name := "A"
  super := none
  methods := bodies.map idleMethod
  attributes

/-- The class is read of a tree if the items of its bodies are proper and sound and refer to labels
that are there, and its attributes have names. -/
theorem exists_ofTree_idleClass {bodies : List (List Item)} {attributes : List Attribute}
    (hitems : ∀ body ∈ bodies, ∀ i ∈ body, i.IsSound ∧ i.IsProper)
    (hclosed : ∀ body ∈ bodies, Closed body [] []) (hnames : ∀ a ∈ attributes, a.name ≠ []) :
    ∃ n, Class.ofTree n = .ok (idleClass bodies attributes) := by
  have hclass : ("A" : Text) ≠ [] ∧ (0x2E : CodePoint) ∉ ("A" : Text) := by decide
  have hmethod : ("f" : Text) ≠ [] := by decide
  have hsound : (idleClass bodies attributes).IsSound := by
    refine ⟨isInt_ofNat (n := 0x21) (by decide), ⟨isInt_ofNat (n := 52) (by decide),
      isInt_ofNat (n := 0) (by decide)⟩, nofun, fun m hm => ?_, nofun⟩
    obtain ⟨body, hbody, rfl⟩ := List.mem_map.1 hm
    refine ⟨isInt_ofNat (n := 8) (by decide), nofun, ?_, fun i hi => (hitems body hbody i hi).1, nofun,
      hclosed body hbody, nofun, nofun, nofun⟩
    rintro sizes ⟨⟩
    exact ⟨isInt_ofNat (n := 1) (by decide), isInt_ofNat (n := 0) (by decide)⟩
  have hrenderable : (idleClass bodies attributes).IsRenderable := by
    refine ⟨⟨hclass.1, nofun, nofun, fun m hm => ?_, nofun, nofun, nofun, hnames⟩, hclass.2,
      fun m hm => ?_⟩
    · obtain ⟨body, hbody, rfl⟩ := List.mem_map.1 hm
      exact ⟨hmethod, nofun, nofun, fun i hi => (hitems body hbody i hi).2, nofun, nofun, nofun⟩
    · obtain ⟨body, -, rfl⟩ := List.mem_map.1 hm
      exact nofun
  obtain ⟨n, -, hn⟩ := Tree.exists_class hsound hrenderable
  have hbare : (idleClass bodies attributes).bare = idleClass bodies attributes := by
    simp only [Class.bare, idleClass, List.map_nil, List.map_map]
    rfl
  exact ⟨n, hbare ▸ hn⟩

/-- The class can be read, if its bodies are legible and its attributes are none that would be taken
apart. -/
theorem isLegible_idleClass {bodies : List (List Item)} {attributes : List Attribute}
    (hbodies : ∀ body ∈ bodies, LegibleBody body)
    (hattributes : ∀ a ∈ attributes, a.name ∉ AttributeName.ofClass) :
    (idleClass bodies attributes).IsLegible := by
  refine ⟨nofun, fun m hm => ?_, hattributes⟩
  obtain ⟨body, hbody, rfl⟩ := List.mem_map.1 hm
  exact ⟨hbodies body hbody, fun _ _ => ⟨nofun, nofun, nofun⟩, nofun, fun _ => nofun⟩

theorem isMethodOf_void : Descriptor.IsMethodOf [] "()V" := ⟨nofun, "V", .inr rfl, by decide⟩

theorem isMethod_of_mem_idleClass {bodies : List (List Item)} {attributes : List Attribute} :
    ∀ m ∈ (idleClass bodies attributes).methods, Descriptor.IsMethod m.descriptor := by
  intro m hm
  obtain ⟨body, -, rfl⟩ := List.mem_map.1 hm
  exact ⟨[], isMethodOf_void⟩

/-! ## A switch -/

/-- A switch that is gone round for ever, on a line of its own. -/
def switchBody : List Item :=
  [.label ⟨"L0"⟩, .line 7, .instruction (.plain .iconst_0)] ++
    [.instruction (.tableSwitch 0 0 ⟨"L0"⟩ [⟨"L0"⟩])]

/-- The class file of the class with the switch. -/
def switchBytes : Bytes :=
  [202, 254, 186, 190, 0, 0, 0, 52, 0, 7, 1, 0, 1, 65, 7, 0, 1, 1, 0, 1, 102, 1, 0, 3, 40, 41, 86, 1, 0,
    4, 67, 111, 100, 101, 1, 0, 15, 76, 105, 110, 101, 78, 117, 109, 98, 101, 114, 84, 97, 98, 108, 101,
    0, 33, 0, 2, 0, 0, 0, 0, 0, 0, 0, 1, 0, 8, 0, 3, 0, 4, 0, 1, 0, 5, 0, 0, 0, 44, 0, 1, 0, 0, 0, 0, 0,
    20, 3, 170, 0, 0, 255, 255, 255, 255, 0, 0, 0, 0, 0, 0, 0, 0, 255, 255, 255, 255, 0, 0, 0, 1, 0, 6, 0,
    0, 0, 6, 0, 1, 0, 0, 0, 7, 0, 0]

theorem legibleBody_switchBody : LegibleBody switchBody := by
  refine .concat (by decide) ?_ (by simp)
  simp [Instruction.HasTargets]

/-- The class with the switch is read of a tree. -/
theorem exists_ofTree_switchClass : ∃ n, Class.ofTree n = .ok (idleClass [switchBody] []) := by
  refine exists_ofTree_idleClass ?_ ?_ nofun
  · simp only [List.forall_mem_singleton, switchBody, List.cons_append, List.nil_append,
      List.forall_mem_cons]
    exact ⟨⟨trivial, trivial⟩, ⟨isInt_ofNat (n := 7) (by decide), trivial⟩, ⟨rfl, trivial⟩,
      ⟨isInt_ofNat (n := 0) (by decide), isInt_ofNat (n := 0) (by decide)⟩, trivial⟩
  · simp only [List.forall_mem_singleton]
    exact ⟨by decide, by decide, nofun, nofun⟩

theorem toBytes_switchClass : (idleClass [switchBody] []).toBytes false = .ok switchBytes := by
  have hrun : ∃ q, (classFile false (idleClass [switchBody] [])).run (Pool.seeded [] []) =
      .ok (switchBytes, q) := ⟨_, by cbv⟩
  obtain ⟨q, hrun⟩ := hrun
  exact toBytes_eq_ok hrun

/-- The class with the switch is read back. -/
theorem exists_ofBytes_switchClass : (∃ n, Class.ofTree n = .ok (idleClass [switchBody] [])) ∧
    (idleClass [switchBody] []).toBytes false = .ok switchBytes ∧
    (oldestMajor ≤ (idleClass [switchBody] []).major ∧ (idleClass [switchBody] []).major ≤ newestMajor) ∧
    (∀ m ∈ (idleClass [switchBody] []).methods, Descriptor.IsMethod m.descriptor) ∧
    (idleClass [switchBody] []).IsLegible ∧ ∃ read, Class.ofBytes switchBytes = .ok read := by
  have hversion : oldestMajor ≤ (idleClass [switchBody] []).major ∧
      (idleClass [switchBody] []).major ≤ newestMajor := by decide
  have hlegible : (idleClass [switchBody] []).IsLegible :=
    isLegible_idleClass (List.forall_mem_singleton.2 legibleBody_switchBody) nofun
  obtain ⟨n, hn⟩ := exists_ofTree_switchClass
  exact ⟨⟨n, hn⟩, toBytes_switchClass, hversion, isMethod_of_mem_idleClass, hlegible,
    Class.exists_ofBytes_of_ofTree hn toBytes_switchClass hversion isMethod_of_mem_idleClass hlegible⟩

/-! ## Class files that are refused -/

/-- A jump to the end of its body. -/
def strayBody : List Item := [.instruction (.jump .goto ⟨"L0"⟩), .label ⟨"L0"⟩]

/-- The class file of the class with that jump. -/
def strayBytes : Bytes :=
  [202, 254, 186, 190, 0, 0, 0, 52, 0, 6, 1, 0, 1, 65, 7, 0, 1, 1, 0, 1, 102, 1, 0, 3, 40, 41, 86, 1, 0,
    4, 67, 111, 100, 101, 0, 33, 0, 2, 0, 0, 0, 0, 0, 0, 0, 1, 0, 8, 0, 3, 0, 4, 0, 1, 0, 5, 0, 0, 0, 15,
    0, 1, 0, 0, 0, 0, 0, 3, 167, 0, 3, 0, 0, 0, 0, 0, 0]

/-- The table of its constants. -/
def strayTable : Table where
  entries := #[none, some (.utf8 "A"), some (.type 1), some (.utf8 "f"), some (.utf8 "()V"),
    some (.utf8 AttributeName.code)]
  bootstrap := #[]

/-- An attribute under the name of signatures, without any bytes. -/
def garbledAttribute : Attribute := ⟨AttributeName.signature, []⟩

/-- The class file of the class with that attribute. -/
def garbledBytes : Bytes :=
  [202, 254, 186, 190, 0, 0, 0, 52, 0, 4, 1, 0, 1, 65, 7, 0, 1, 1, 0, 9, 83, 105, 103, 110, 97, 116, 117,
    114, 101, 0, 33, 0, 2, 0, 0, 0, 0, 0, 0, 0, 0, 0, 1, 0, 3, 0, 0, 0, 0]

/-- The table of its constants. -/
def garbledTable : Table where
  entries := #[none, some (.utf8 "A"), some (.type 1), some (.utf8 AttributeName.signature)]
  bootstrap := #[]

/-- The table of the class with the jump is read. -/
theorem readTable_strayBytes :
    readTable ⟨8, strayBytes.drop 8⟩ = .ok (strayTable, ⟨34, strayBytes.drop 34⟩) := by
  have hscan : scanBootstrap strayTable ⟨34, strayBytes.drop 34⟩ = .ok ([], ⟨77, []⟩) := by cbv
  exact readTable_eq_ok (by cbv) hscan

theorem exists_readOperations_strayBytes :
    ∃ e, readOperations strayTable 3 ⟨68, strayBytes.drop 68⟩ = .error e := by
  have hfamily : Opcode.goto.family = .jump := by decide
  have hwidth : (if Opcode.goto.isFar = true then 4 else 2) = 1 + 1 := by decide
  have hoperand : Bytes.signed? (1 + 1) ((3 : Int) - (0 : Nat)) = some [0, 3] := by decide
  have hjump : Reads (readInstruction strayTable 0) (codeByte .goto :: [0, 3]) (.jump .goto 3) :=
    reads_readInstruction fun start => reads_jumpOperand hfamily hwidth hoperand start
  have hcode : ReadsCode strayTable 0 ([codeByte .goto, 0, 3] ++ []) [(0, .jump .goto 3)] :=
    .cons hjump (.nil 3)
  have hbytes : strayBytes.drop 68 = ([codeByte .goto, 0, 3] ++ []) ++ strayBytes.drop 71 := by decide
  rw [hbytes]
  exact hcode.exists_readOperations_eq_error (List.mem_singleton_self _) (List.mem_singleton_self 3)
    (by decide) 68 _

theorem exists_readCode_strayBytes (registry : Label.Registry) :
    ∃ e, readCode strayTable registry ⟨60, strayBytes.drop 60⟩ = .error e := by
  obtain ⟨e, he⟩ := exists_readOperations_strayBytes
  refine ⟨e, bind_eq_error_iff.2 (.inl ?_)⟩
  refine bind_eq_error_iff.2 (.inr ⟨1, ⟨62, strayBytes.drop 62⟩, by cbv, ?_⟩)
  refine bind_eq_error_iff.2 (.inr ⟨0, ⟨64, strayBytes.drop 64⟩, by cbv, ?_⟩)
  refine bind_eq_error_iff.2 (.inr ⟨3, ⟨68, strayBytes.drop 68⟩, by cbv, ?_⟩)
  refine bind_eq_error_iff.2 (.inr ⟨_, ⟨68, strayBytes.drop 68⟩, rfl, ?_⟩)
  refine bind_eq_error_iff.2 (.inr ⟨(), ⟨68, strayBytes.drop 68⟩, by cbv, ?_⟩)
  refine bind_eq_error_iff.2 (.inr ⟨(), ⟨71, strayBytes.drop 71⟩, by cbv, ?_⟩)
  refine bind_eq_error_iff.2 (.inr ⟨[], ⟨73, strayBytes.drop 73⟩, by cbv, ?_⟩)
  refine bind_eq_error_iff.2 (.inr ⟨{}, ⟨75, strayBytes.drop 75⟩, by cbv, ?_⟩)
  refine bind_eq_error_iff.2 (.inl ?_)
  refine bind_eq_error_iff.2 (.inr ⟨_, _, rfl, bind_eq_error_iff.2 (.inr ⟨_, _, rfl, ?_⟩)⟩)
  exact bind_eq_error_iff.2 (.inl he)

theorem exists_readMethod_strayBytes :
    ∃ e, readMethod strayTable ⟨46, strayBytes.drop 46⟩ = .error e := by
  have harguments : Descriptor.arguments "()V" = .ok [] := isMethodOf_void.arguments_eq
  obtain ⟨e, he⟩ := exists_readCode_strayBytes { place := "f" ++ "()V" }
  refine ⟨e, bind_eq_error_iff.2 (.inr ⟨8, ⟨48, strayBytes.drop 48⟩, by cbv, ?_⟩)⟩
  refine bind_eq_error_iff.2 (.inr ⟨3, ⟨50, strayBytes.drop 50⟩, by cbv, ?_⟩)
  refine bind_eq_error_iff.2 (.inr ⟨"f", ⟨50, strayBytes.drop 50⟩, by cbv, ?_⟩)
  refine bind_eq_error_iff.2 (.inr ⟨4, ⟨52, strayBytes.drop 52⟩, by cbv, ?_⟩)
  refine bind_eq_error_iff.2 (.inr ⟨"()V", ⟨52, strayBytes.drop 52⟩, by cbv, ?_⟩)
  rw [harguments]
  -- its code
  refine bind_eq_error_iff.2 (.inr ⟨1, ⟨54, strayBytes.drop 54⟩, by cbv, ?_⟩)
  refine bind_eq_error_iff.2 (.inl ?_)
  refine bind_eq_error_iff.2 (.inr ⟨5, ⟨56, strayBytes.drop 56⟩, by cbv, ?_⟩)
  refine bind_eq_error_iff.2 (.inr ⟨AttributeName.code, ⟨56, strayBytes.drop 56⟩, rfl, ?_⟩)
  refine bind_eq_error_iff.2 (.inr ⟨15, ⟨60, strayBytes.drop 60⟩, by cbv, ?_⟩)
  refine bind_eq_error_iff.2 (.inr ⟨60, ⟨60, strayBytes.drop 60⟩, rfl, ?_⟩)
  refine bind_eq_error_iff.2 (.inr ⟨(), ⟨60, strayBytes.drop 60⟩, by cbv, ?_⟩)
  refine bind_eq_error_iff.2 (.inl ?_)
  unfold readMethodAttribute
  rw [if_pos rfl]
  exact bind_eq_error_iff.2 (.inl he)

theorem exists_readClassFile_strayBytes : ∃ e, readClassFile ⟨0, strayBytes⟩ = .error e := by
  obtain ⟨e, he⟩ := exists_readMethod_strayBytes
  unfold readClassFile
  refine ⟨e, bind_eq_error_iff.2 (.inr ⟨(52, 0), ⟨8, strayBytes.drop 8⟩, by cbv, ?_⟩)⟩
  refine bind_eq_error_iff.2 (.inr ⟨_, _, readTable_strayBytes, ?_⟩)
  refine bind_eq_error_iff.2 (.inr ⟨0x21, ⟨36, strayBytes.drop 36⟩, by cbv, ?_⟩)
  refine bind_eq_error_iff.2 (.inr ⟨"A", ⟨38, strayBytes.drop 38⟩, by cbv, ?_⟩)
  refine bind_eq_error_iff.2 (.inr ⟨0, ⟨40, strayBytes.drop 40⟩, by cbv, ?_⟩)
  refine bind_eq_error_iff.2 (.inr ⟨none, ⟨40, strayBytes.drop 40⟩, by cbv, ?_⟩)
  refine bind_eq_error_iff.2 (.inr ⟨[], ⟨42, strayBytes.drop 42⟩, by cbv, ?_⟩)
  refine bind_eq_error_iff.2 (.inr ⟨[], ⟨44, strayBytes.drop 44⟩, by cbv, ?_⟩)
  refine bind_eq_error_iff.2 (.inl ?_)
  refine bind_eq_error_iff.2 (.inr ⟨1, ⟨46, strayBytes.drop 46⟩, by cbv, ?_⟩)
  exact bind_eq_error_iff.2 (.inl he)

/-- The table of the class with the attribute is read. -/
theorem readTable_garbledBytes :
    readTable ⟨8, garbledBytes.drop 8⟩ = .ok (garbledTable, ⟨29, garbledBytes.drop 29⟩) := by
  have hname : Reads (garbledTable.utf8 3) [] AttributeName.signature := fun _ _ => rfl
  have hindex : Bytes.unsigned? 2 (3 : Nat) = some [0, 3] := by decide
  have hlength : Bytes.unsigned? 4 (([] : Bytes).length : Nat) = some [0, 0, 0, 0] := by decide
  have hhead : ([0, 33, 0, 2, 0, 0] : Bytes).length = 6 := rfl
  have hscan := reads_scanBootstrap_of_ne hhead hindex hname hlength (by decide)
  exact readTable_eq_ok (by cbv) (hscan.run_nil 29)

theorem readClassFile_garbledBytes :
    readClassFile ⟨0, garbledBytes⟩ = .error (.malformed (.unexpectedEnd 2) 49) := by
  unfold readClassFile
  refine bind_eq_error_iff.2 (.inr ⟨(52, 0), ⟨8, garbledBytes.drop 8⟩, by cbv, ?_⟩)
  refine bind_eq_error_iff.2 (.inr ⟨_, _, readTable_garbledBytes, ?_⟩)
  cbv

/-- The class file of the class with the attribute, which nobody looks into when it is verified. -/
theorem toBytes_garbledClass (verify : Bool) :
    (idleClass [] [garbledAttribute]).toBytes verify = .ok garbledBytes := by
  have hrun : ∃ q, (classFile verify (idleClass [] [garbledAttribute])).run (Pool.seeded [] []) =
      .ok (garbledBytes, q) := ⟨_, by cbv⟩
  obtain ⟨q, hrun⟩ := hrun
  exact toBytes_eq_ok hrun

/-- The class file of the class with the jump, if it is not verified. -/
theorem toBytes_strayClass : (idleClass [strayBody] []).toBytes false = .ok strayBytes := by
  have hrun : ∃ q, (classFile false (idleClass [strayBody] [])).run (Pool.seeded [] []) =
      .ok (strayBytes, q) := ⟨_, by cbv⟩
  obtain ⟨q, hrun⟩ := hrun
  exact toBytes_eq_ok hrun

/-- The class with the jump is read of a tree. -/
theorem exists_ofTree_strayClass : ∃ n, Class.ofTree n = .ok (idleClass [strayBody] []) := by
  refine exists_ofTree_idleClass ?_ ?_ nofun
  · simp only [List.forall_mem_singleton, strayBody, List.forall_mem_cons]
    exact ⟨⟨rfl, trivial⟩, trivial, trivial⟩
  · simp only [List.forall_mem_singleton]
    exact ⟨by decide, by decide, nofun, nofun⟩

namespace Class

/-- The class comes from a tree, its version is known and its descriptors are well-formed; it is
written, and its class file is refused. -/
def IsRefused (verify : Bool) (c : Class) : Prop :=
  (∃ n, ofTree n = .ok c) ∧ (oldestMajor ≤ c.major ∧ c.major ≤ newestMajor) ∧
    (∀ m ∈ c.methods, Descriptor.IsMethod m.descriptor) ∧
    ∃ bytes, c.toBytes verify = .ok bytes ∧ ∃ e, ofBytes bytes = .error e

theorem exists_ofBytes_eq_error {bytes : Bytes} (h : ∃ e, readClassFile ⟨0, bytes⟩ = .error e) :
    ∃ e, ofBytes bytes = .error e := by
  obtain ⟨e, he⟩ := h
  unfold ofBytes StateT.run
  rw [he]
  exact ⟨e, rfl⟩

/-- Refused are the class with bytes that are no signature, whether it is verified or not, and, if
it is not verified, the class with a jump to the end of its code. -/
theorem isRefused_idleClass : (∀ verify, (idleClass [] [garbledAttribute]).IsRefused verify) ∧
    (idleClass [strayBody] []).IsRefused false := by
  have hgarbled : ∃ n, ofTree n = .ok (idleClass [] [garbledAttribute]) :=
    exists_ofTree_idleClass nofun nofun (List.forall_mem_singleton.2 (by decide))
  refine ⟨fun verify => ⟨hgarbled, ⟨by decide, by decide⟩, isMethod_of_mem_idleClass, _,
    toBytes_garbledClass verify, ?_⟩, exists_ofTree_strayClass, ⟨by decide, by decide⟩,
    isMethod_of_mem_idleClass, _, toBytes_strayClass, ?_⟩
  · exact exists_ofBytes_eq_error ⟨_, readClassFile_garbledBytes⟩
  · exact exists_ofBytes_eq_error exists_readClassFile_strayBytes

end Class

end ClassTree
