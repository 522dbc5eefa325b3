/-
# ClassTree.Proofs.LabelClosure — no reader leaves a label open

A label that a method refers to has one marker in the body of the method. Both readers see to that,
the one of class files and the one of trees, so writing what they give never fails over a label. In
a class file labels come from code offsets: each offset has one label, and the marker stands where
the offset is.
-/
import Mathlib
import ClassTree.Proofs.Decoding.ClassFile
import ClassTree.Proofs.Decoding.Placement
import ClassTree.Proofs.Encoding.Labels
import ClassTree.Proofs.Tree.RoundTrip

namespace ClassTree

open Decoding Decoder

/-! ## Markers of labels -/

/-- A label that is defined once has one marker: there is exactly one place in the body where it
stands. -/
theorem existsUnique_label {body : List Item} (hnodup : (definitions body).Nodup) {l : Label}
    (hl : l ∈ definitions body) : ∃! i : Nat, body[i]? = some (.label l) := by
  have hmem (body : List Item) {i : Nat} (hi : body[i]? = some (.label l)) : l ∈ definitions body :=
    List.mem_filterMap.2 ⟨_, List.mem_of_getElem? hi, rfl⟩
  induction body with
  | nil => cases hl
  | cons item body ih =>
    by_cases hitem : item = .label l
    · subst hitem
      obtain ⟨hnew, -⟩ := List.nodup_cons.1 hnodup
      refine ⟨0, rfl, fun i hi => ?_⟩
      cases i with
      | zero => rfl
      | succ i => exact absurd (hmem body hi) hnew
    · have hrest : (definitions body).Nodup ∧ l ∈ definitions body := by
        cases item with
        | label l' =>
          refine ⟨(List.nodup_cons.1 hnodup).2, (List.mem_cons.1 hl).resolve_left ?_⟩
          rintro rfl
          exact hitem rfl
        | instruction _ | line _ | frame _ => exact ⟨hnodup, hl⟩
      obtain ⟨i, hi, hunique⟩ := ih hrest.1 hrest.2
      refine ⟨i + 1, hi, fun j hj => ?_⟩
      cases j with
      | zero => exact absurd (Option.some.inj hj) hitem
      | succ j => rw [hunique j hj]

namespace Method

/-- The labels that a method refers to: in jumps and switches, in frames, in handlers and in local
variables. -/
def references (m : Method) : List Label :=
  m.body.flatMap Item.references ++ m.handlers.flatMap Handler.references ++
    m.localVariables.flatMap LocalVariable.references

/-- No label is defined twice, and each label that is referred to has one marker. -/
structure IsClosed (m : Method) : Prop where
  nodup : m.labels.Nodup
  marker : ∀ l ∈ m.references, ∃! i : Nat, m.body[i]? = some (.label l)

theorem IsSound.isClosed {m : Method} (h : m.IsSound) : m.IsClosed where
  nodup := h.closed.nodup
  marker := by
    intro l hl
    refine existsUnique_label h.closed.nodup ?_
    unfold references at hl
    simp only [List.mem_append, List.mem_flatMap] at hl
    rcases hl with (⟨i, hi, hl⟩ | ⟨handler, hhandler, hl⟩) | ⟨v, hv, hl⟩
    · exact h.closed.items i hi hl
    · exact h.closed.handlers handler hhandler hl
    · exact h.closed.locals v hv hl

end Method

namespace Class

/-- All methods of a class are closed, and no writing of it fails over a label. -/
structure SparesLabels (c : Class) : Prop where
  methods : ∀ m ∈ c.methods, m.IsClosed
  toBytes : ∀ verify e, c.toBytes verify = .error e → e.isAboutLabel = false

theorem IsSound.sparesLabels {c : Class} (h : c.IsSound) : c.SparesLabels where
  methods := fun m hm => (h.methods m hm).isClosed
  toBytes := fun verify _ he => (spares_toBytes h verify).spares he

/-- Labels are closed in every class that has been read, from a class file or from a tree: what
handlers, instructions, variables and frames refer to is marked in the body exactly once, and
writing the class raises no complaint about a label, verified or not. In a class file, moreover, the
labels of a method stand for different code offsets, and every marker stands at an instruction of
the code attribute or at its end. -/
theorem sparesLabels_of_read :
    (∀ bytes c, ofBytes bytes = .ok c → c.SparesLabels ∧
      ∃ t : Table, t.IsIn bytes ∧ ∀ m ∈ c.methods, IsReadFrom bytes t m) ∧
    ∀ n c, ofTree n = .ok c → c.SparesLabels :=
  ⟨fun _ _ h => ⟨(isSound_of_ofBytes h).sparesLabels, isReadFrom_of_ofBytes h⟩,
    fun _ _ h => (isSound_of_ofTree h).sparesLabels⟩

/-- The class file of a class with a method that never ends. -/
def loopFile : Bytes :=
  [0xCA, 0xFE, 0xBA, 0xBE, 0, 0, 0, 52, 0, 6, 1, 0, 1, 65, 7, 0, 1, 1, 0, 1, 102, 1, 0, 3, 40, 41, 86, 1,
    0, 4, 67, 111, 100, 101, 0, 0x21, 0, 2, 0, 0, 0, 0, 0, 0, 0, 1, 0, 9, 0, 3, 0, 4, 0, 1, 0, 5, 0, 0, 0,
    15, 0, 0, 0, 0, 0, 0, 0, 3, 0xA7, 0, 0, 0, 0, 0, 0, 0, 0]

/-- The table of its constants. -/
def loopTable : Table where
  entries := #[none, some (.utf8 "A"), some (.type 1), some (.utf8 "f"), some (.utf8 "()V"),
    some (.utf8 AttributeName.code)]
  bootstrap := #[]

theorem readOperations_loopFile : readOperations loopTable 3 ⟨68, loopFile.drop 68⟩ =
    .ok ([(0, .jump .goto 0)], ⟨71, loopFile.drop 71⟩) := rfl

theorem readTable_loopFile :
    readTable ⟨8, loopFile.drop 8⟩ = .ok (loopTable, ⟨34, loopFile.drop 34⟩) := by
  have hscan : scanBootstrap loopTable ⟨34, loopFile.drop 34⟩ = .ok ([], ⟨77, []⟩) := by cbv
  exact readTable_eq_ok (by cbv) hscan

/-- The code of the method, with offsets for labels. -/
def loopCode : RawCode where
  maxima := ⟨0, 0⟩
  start := 68
  length := 3
  handlers := []
  instructions := [(0, .jump .goto 0)]
  tables := {}

theorem readRawCode_loopFile :
    readRawCode loopTable ⟨60, loopFile.drop 60⟩ = .ok (loopCode, ⟨75, loopFile.drop 75⟩) := by
  refine bind_eq_ok_iff.2 ⟨0, ⟨62, loopFile.drop 62⟩, by cbv, ?_⟩
  refine bind_eq_ok_iff.2 ⟨0, ⟨64, loopFile.drop 64⟩, by cbv, ?_⟩
  refine bind_eq_ok_iff.2 ⟨3, ⟨68, loopFile.drop 68⟩, by cbv, ?_⟩
  refine bind_eq_ok_iff.2 ⟨_, ⟨68, loopFile.drop 68⟩, rfl, ?_⟩
  refine bind_eq_ok_iff.2 ⟨(), ⟨68, loopFile.drop 68⟩, by cbv, ?_⟩
  refine bind_eq_ok_iff.2 ⟨(), ⟨71, loopFile.drop 71⟩, by cbv, ?_⟩
  refine bind_eq_ok_iff.2 ⟨[], ⟨73, loopFile.drop 73⟩, by cbv, ?_⟩
  refine bind_eq_ok_iff.2 ⟨{}, ⟨75, loopFile.drop 75⟩, by cbv, ?_⟩
  refine bind_eq_ok_iff.2 ⟨[(0, .jump .goto 0)], ⟨75, loopFile.drop 75⟩, ?_, rfl⟩
  refine bind_eq_ok_iff.2 ⟨_, _, rfl, bind_eq_ok_iff.2 ⟨_, _, rfl, ?_⟩⟩
  exact bind_eq_ok_iff.2 ⟨_, _, readOperations_loopFile, rfl⟩

/-- The method that never ends. -/
def loopMethod : Method where
  access := 9
  name := "f"
  descriptor := "()V"
  maxima := some ⟨0, 0⟩
  body := [.label ⟨"L0"⟩, .instruction (.jump .goto ⟨"L0"⟩)]
  layout := { attributeOrder := [AttributeName.code] }

/-- Its class. -/
def loopClass : Class where
  name := "A"
  access := 0x21
  super := none
  methods := [loopMethod]
  layout := { pool := loopTable.entries.toList }

/-- The method that never ends is read. -/
theorem readMethod_loopFile : readMethod loopTable ⟨46, loopFile.drop 46⟩ =
    .ok (loopMethod, ⟨75, loopFile.drop 75⟩) := by
  have harguments : Descriptor.arguments "()V" = .ok [] := by cbv
  have hcode : readCode loopTable { place := "f" ++ "()V" } ⟨60, loopFile.drop 60⟩ =
      .ok (⟨⟨0, 0⟩, loopMethod.body, [], [], [], [], []⟩, ⟨75, loopFile.drop 75⟩) :=
    bind_eq_ok_iff.2 ⟨loopCode, _, readRawCode_loopFile, by cbv⟩
  refine bind_eq_ok_iff.2 ⟨9, ⟨48, loopFile.drop 48⟩, by cbv, ?_⟩
  refine bind_eq_ok_iff.2 ⟨3, ⟨50, loopFile.drop 50⟩, by cbv, ?_⟩
  refine bind_eq_ok_iff.2 ⟨"f", ⟨50, loopFile.drop 50⟩, by cbv, ?_⟩
  refine bind_eq_ok_iff.2 ⟨4, ⟨52, loopFile.drop 52⟩, by cbv, ?_⟩
  refine bind_eq_ok_iff.2 ⟨"()V", ⟨52, loopFile.drop 52⟩, by cbv, ?_⟩
  rw [harguments]
  -- its code
  refine bind_eq_ok_iff.2 ⟨1, ⟨54, loopFile.drop 54⟩, by cbv, ?_⟩
  refine bind_eq_ok_iff.2 ⟨loopMethod, ⟨75, loopFile.drop 75⟩, ?_, rfl⟩
  refine bind_eq_ok_iff.2 ⟨5, ⟨56, loopFile.drop 56⟩, by cbv, ?_⟩
  refine bind_eq_ok_iff.2 ⟨AttributeName.code, ⟨56, loopFile.drop 56⟩, rfl, ?_⟩
  refine bind_eq_ok_iff.2 ⟨15, ⟨60, loopFile.drop 60⟩, by cbv, ?_⟩
  refine bind_eq_ok_iff.2 ⟨60, ⟨60, loopFile.drop 60⟩, rfl, ?_⟩
  refine bind_eq_ok_iff.2 ⟨(), ⟨60, loopFile.drop 60⟩, by cbv, ?_⟩
  refine bind_eq_ok_iff.2 ⟨loopMethod, ⟨75, loopFile.drop 75⟩, ?_, rfl⟩
  unfold readMethodAttribute
  rw [if_pos rfl]
  exact bind_eq_ok_iff.2 ⟨_, _, hcode, rfl⟩

/-- The class with the method that never ends is read. -/
theorem ofBytes_loopFile : ofBytes loopFile = .ok loopClass := by
  have hread : readClassFile ⟨0, loopFile⟩ = .ok (loopClass, ⟨77, []⟩) := by
    unfold readClassFile
    refine bind_eq_ok_iff.2 ⟨(52, 0), ⟨8, loopFile.drop 8⟩, by cbv, ?_⟩
    refine bind_eq_ok_iff.2 ⟨_, _, readTable_loopFile, ?_⟩
    refine bind_eq_ok_iff.2 ⟨0x21, ⟨36, loopFile.drop 36⟩, by cbv, ?_⟩
    refine bind_eq_ok_iff.2 ⟨"A", ⟨38, loopFile.drop 38⟩, by cbv, ?_⟩
    refine bind_eq_ok_iff.2 ⟨0, ⟨40, loopFile.drop 40⟩, by cbv, ?_⟩
    refine bind_eq_ok_iff.2 ⟨none, ⟨40, loopFile.drop 40⟩, by cbv, ?_⟩
    refine bind_eq_ok_iff.2 ⟨[], ⟨42, loopFile.drop 42⟩, by cbv, ?_⟩
    refine bind_eq_ok_iff.2 ⟨[], ⟨44, loopFile.drop 44⟩, by cbv, ?_⟩
    refine bind_eq_ok_iff.2 ⟨[loopMethod], ⟨75, loopFile.drop 75⟩, ?_, by cbv⟩
    refine bind_eq_ok_iff.2 ⟨1, ⟨46, loopFile.drop 46⟩, by cbv, ?_⟩
    exact bind_eq_ok_iff.2 ⟨loopMethod, _, readMethod_loopFile, rfl⟩
  unfold ofBytes StateT.run
  rw [hread]

/-- A loop that has been read from a class file, and one that has been read from a tree. -/
theorem sparesLabels_loops :
    (∃ c, ofBytes loopFile = .ok c ∧
      c.methods.map Method.body = [[.label ⟨"L0"⟩, .instruction (.jump .goto ⟨"L0"⟩)]] ∧
      c.SparesLabels ∧ ∃ t : Table, t.IsIn loopFile ∧ ∀ m ∈ c.methods, IsReadFrom loopFile t m) ∧
    ∃ n, ofTree n = .ok endlessClass ∧ endlessClass.SparesLabels := by
  obtain ⟨n, -, hn⟩ := Tree.exists_class isSound_endlessClass isRenderable_endlessClass
  exact ⟨⟨loopClass, ofBytes_loopFile, rfl, sparesLabels_of_read.1 _ _ ofBytes_loopFile⟩, n, hn,
    sparesLabels_of_read.2 _ _ hn⟩

end Class

end ClassTree
