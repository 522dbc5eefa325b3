/-
# ClassTree.Proofs.AttributeLength — attributes are as long as they say

A class file is accepted only if each attribute that is taken apart is read to its end and no
further: attributes of the class, of its members and of code. The bootstrap methods are an
exception; they may end before their attribute does.
-/
import Mathlib
import ClassTree.Proofs.Attributes
import ClassTree.Proofs.Decoding.Parts
import ClassTree.Proofs.Decoding.Total

namespace ClassTree

open Decoding Decoder

/-- Every class file is malformed, or it is read by its parts: each attribute that its names and
lengths lead to is read by itself and to its end, the bootstrap methods aside. So an attribute whose
content ends before or behind its declared length is refused, wherever it stands. The bootstrap
table alone is read ahead of its turn and skipped over by its length afterwards. -/
theorem Class.exists_isReadAs_or_malformed (bytes : Bytes) :
    (∃ c, Class.ofBytes bytes = .ok c ∧ ∃ o, Outline.ofBytes bytes = .ok o ∧ ∃ t, o.IsReadAs c t) ∨
      ∃ cause offset, Class.ofBytes bytes = .error (.malformed cause offset) := by
  rcases isSound_or_malformed_of_ofBytes bytes with ⟨c, hread, -⟩ | hmalformed
  · exact .inl ⟨c, hread, exists_isReadAs_of_ofBytes hread⟩
  · exact .inr hmalformed

/-! ## Bootstrap methods that end too early -/

/-- A class without bootstrap methods whose table of bootstrap methods says that it has three bytes.
-/
def slackFile : Bytes :=
  [0xCA, 0xFE, 0xBA, 0xBE, 0, 0, 0, 52, 0, 4, 1, 0, 1, 65, 7, 0, 1, 1, 0, 16, 66, 111, 111, 116, 115,
    116, 114, 97, 112, 77, 101, 116, 104, 111, 100, 115, 0, 33, 0, 2, 0, 0, 0, 0, 0, 0, 0, 0, 0, 1, 0,
    3, 0, 0, 0, 3, 0, 0, 0xFF]

/-- Its pool. -/
def slackTable : Table where
  entries := #[none, some (.utf8 "A"), some (.type 1), some (.utf8 "BootstrapMethods")]
  bootstrap := #[]

/-- The class. -/
def slackClass : Class where
  name := "A"
  super := none
  layout := { pool := slackTable.entries.toList, attributeOrder := ["BootstrapMethods"] }

/-- The class is read of its file. -/
theorem ofBytes_slackFile : Class.ofBytes slackFile = .ok slackClass := by
  have hread : readClassFile ⟨0, slackFile⟩ = .ok (slackClass, ⟨59, []⟩) := by
    unfold readClassFile
    refine bind_eq_ok_iff.2 ⟨(52, 0), ⟨8, slackFile.drop 8⟩, by cbv, ?_⟩
    refine bind_eq_ok_iff.2 ⟨slackTable, ⟨36, slackFile.drop 36⟩, ?_, ?_⟩
    · have hscan : scanBootstrap ⟨slackTable.entries, #[]⟩ ⟨36, slackFile.drop 36⟩ =
          .ok ([], ⟨59, []⟩) := by cbv
      exact readTable_eq_ok (by cbv) hscan
    refine bind_eq_ok_iff.2 ⟨0x21, ⟨38, slackFile.drop 38⟩, by cbv, ?_⟩
    refine bind_eq_ok_iff.2 ⟨"A", ⟨40, slackFile.drop 40⟩, by cbv, ?_⟩
    refine bind_eq_ok_iff.2 ⟨0, ⟨42, slackFile.drop 42⟩, by cbv, ?_⟩
    refine bind_eq_ok_iff.2 ⟨none, ⟨42, slackFile.drop 42⟩, by cbv, ?_⟩
    refine bind_eq_ok_iff.2 ⟨[], ⟨44, slackFile.drop 44⟩, by cbv, ?_⟩
    refine bind_eq_ok_iff.2 ⟨[], ⟨46, slackFile.drop 46⟩, by cbv, ?_⟩
    refine bind_eq_ok_iff.2 ⟨[], ⟨48, slackFile.drop 48⟩, by cbv, ?_⟩
    have hattribute : Reads (readClassAttribute slackTable "BootstrapMethods" 3 { slackClass with
        layout := { pool := slackTable.entries.toList } }) [0, 0, 0xFF] slackClass := by
      unfold readClassAttribute
      rw [if_neg (by decide), if_neg (by decide), if_neg (by decide), if_neg (by decide),
        if_neg (by decide), if_neg (by decide), if_pos (by decide)]
      exact (Reads.skip (by decide)).bind_nil (.pure _)
    have hindex : Bytes.unsigned? 2 (3 : Nat) = some [0, 3] := by decide
    have hattributes : Reads (Decoding.attributes slackTable (readClassAttribute slackTable) _)
        ([0, 1] ++ ([0, 3] ++ [0, 0, 0, 3] ++ [0, 0, 0xFF])) slackClass :=
      reads_attributes_of_utf8 hindex (fun _ _ => rfl) (by decide) hattribute
    exact bind_eq_ok_iff.2 ⟨slackClass, ⟨59, []⟩, hattributes.run_nil 48, rfl⟩
  unfold Class.ofBytes StateT.run
  rw [hread]

/-- The class is accepted although its table of bootstrap methods takes only two bytes. -/
theorem exists_trailing_slackFile : Class.ofBytes slackFile = .ok slackClass ∧
    ∃ o a, Outline.ofBytes slackFile = .ok o ∧ a ∈ o.attributes ∧
      a.name = AttributeName.bootstrapMethods ∧ a.data.length = 3 ∧
      (listOf readBootstrap).run ⟨0, a.data⟩ = .ok ([], ⟨2, [0xFF]⟩) :=
  ⟨ofBytes_slackFile, ⟨slackTable, [], [], [⟨"BootstrapMethods", [0, 0, 0xFF]⟩]⟩,
    ⟨"BootstrapMethods", [0, 0, 0xFF]⟩, by cbv, List.mem_singleton_self _, rfl, rfl, by cbv⟩

end ClassTree
