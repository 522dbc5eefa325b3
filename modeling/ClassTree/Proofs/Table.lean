/-
# ClassTree.Proofs.Table — constants looked up where they were put

The table that is read from a class file backs the pool that was written into it: where the pool
finds an entry, the table has it. The texts may have changed on the way, since the form in which
they are written joins surrogate pairs; so what is looked up is what was put there, with its texts
changed.
-/
import ClassTree.Proofs.Pool.Adding
import ClassTree.Proofs.Pool.Seed

namespace ClassTree

/-- An entry with its text changed. -/
def Pool.Entry.mapText (g : Text → Text) : Pool.Entry → Pool.Entry
  | .utf8 t => .utf8 (g t)
  | e => e

/-- Without a change of texts an entry stays as it is. -/
@[simp] theorem Pool.Entry.mapText_id (e : Pool.Entry) : e.mapText id = e := by
  cases e <;> rfl

namespace Decoding

open Encoder (Fixed pooled)

/-- Where the pool finds an entry, the table has it, with its text changed by `g`. -/
structure Carries (g : Text → Text) (t : Table) (P : Pool) : Prop where
  entry : ∀ {key : Pool.Entry} {i : Nat}, P.index[key]? = some i →
    t.entries[i]? = some (some (key.mapText g))
  zero : t.entries[0]? = some none

/-- Moreover, the pool finds no irregular entries. -/
structure Backs (g : Text → Text) (t : Table) (P : Pool) : Prop extends Carries g t P where
  regular : ∀ tag operands, P.index[Pool.Entry.irregular tag operands]? = none

/-- The table that is read back backs the pool that was written. -/
theorem backs_of_encode? {P : Pool} (hP : P.WellFormed)
    (hallowed : ∀ e, some e ∈ P.entries → e.Allowed .all) {bytes : Bytes}
    (h : P.encode? = some bytes) (bootstrap : Array Bootstrap) :
    Backs ModifiedUtf8.stored ⟨P.entries.map (Option.map Pool.Entry.stored), bootstrap⟩ P := by
  have hbytes {e : Pool.Entry} (he : some e ∈ P.entries) : ∃ body, e.body? = some body := by
    unfold Pool.encode? at h
    simp only [bind, Option.bind_eq_some_iff, pure, Option.some.injEq] at h
    obtain ⟨count, -, parts, hparts, -⟩ := h
    have hmem : e ∈ P.entries.toList.filterMap id :=
      List.mem_filterMap.2 ⟨some e, Array.mem_toList_iff.2 he, rfl⟩
    obtain ⟨part, -, hpart⟩ :=
      Result.exists_of_mem_left (Pool.forall₂_of_mapM_eq_some hparts) hmem
    obtain ⟨tag, body, -, hbody, -⟩ := Pool.Entry.encode?_eq_some_iff.1 hpart
    exact ⟨body, hbody⟩
  have hfound {key : Pool.Entry} {i : Nat} (hi : P.index[key]? = some i) :
      ∃ e, P.entries[i]? = some (some e) ∧ e.key = key ∧ e.stored.IsRead := by
    rw [hP.index] at hi
    obtain ⟨e, he, hkey⟩ := Pool.getElem?_of_firstIndex? hi
    rw [Array.getElem?_toList] at he
    have hmem := Array.mem_of_getElem? he
    obtain ⟨body, hbody⟩ := hbytes hmem
    exact ⟨e, he, hkey, Pool.Entry.isRead_stored (hallowed e hmem) hbody⟩
  have hstored {e : Pool.Entry} : e.stored = e.key.mapText ModifiedUtf8.stored := by
    cases e with
    | irregular tag operands =>
      show (Pool.Entry.irregular tag operands).key = _
      unfold Pool.Entry.key
      split
      · split <;> rfl
      · split <;> rfl
      · next e _ _ => cases e <;> rfl
    | _ => rfl
  refine ⟨⟨?_, ?_⟩, ?_⟩
  · intro key i hi
    obtain ⟨e, he, rfl, -⟩ := hfound hi
    rw [Array.getElem?_map, he, Option.map_some, Option.map_some, hstored]
  · obtain ⟨entries, hentries⟩ := hP.shape
    rw [Array.getElem?_map, ← Array.getElem?_toList, hentries]
    rfl
  · intro tag operands
    cases hi : P.index[Pool.Entry.irregular tag operands]? with
    | none => rfl
    | some i =>
      obtain ⟨e, -, hkey, hread⟩ := hfound hi
      rw [hstored, hkey] at hread
      exact absurd hread id

/-- The entries of a pool, under the form by which they are found, carry what it finds. -/
theorem carries_key {P : Pool} (hP : P.WellFormed) (bootstrap : Array Bootstrap) :
    Carries id ⟨P.entries.map (Option.map Pool.Entry.key), bootstrap⟩ P := by
  refine ⟨?_, ?_⟩
  · intro key i hi
    rw [hP.index] at hi
    obtain ⟨e, he, rfl⟩ := Pool.getElem?_of_firstIndex? hi
    rw [Array.getElem?_toList] at he
    rw [Array.getElem?_map, he, Option.map_some, Option.map_some, Pool.Entry.mapText_id]
  · obtain ⟨entries, hentries⟩ := hP.shape
    rw [Array.getElem?_map, ← Array.getElem?_toList, hentries]
    rfl

namespace Carries

variable {g : Text → Text} {t : Table} {P : Pool} (ht : Carries g t P) {i : Nat}
include ht

theorem ne_zero {key : Pool.Entry} (h : P.index[key]? = some i) : i ≠ 0 := by
  rintro rfl
  have hentry := ht.entry h
  rw [ht.zero] at hentry
  cases hentry

theorem reads_entry {key : Pool.Entry} (h : P.index[key]? = some i) :
    Reads (t.entry i) [] (key.mapText g) := by
  unfold Table.entry
  rw [ht.entry h]
  exact .pure _

theorem reads_utf8 {s : Text} (h : P.index[Pool.Entry.utf8 s]? = some i) :
    Reads (t.utf8 i) [] (g s) := (ht.reads_entry h).bind (.pure (g s))

/-- A class with a name is looked up. -/
theorem reads_className_some {name : Text}
    (h : Fixed P (pooled (Pool.addClass (some name))) i) :
    Reads (t.className i) [] (some (g name)) := by
  obtain ⟨n, hn, hi⟩ := Encoder.fixed_addClass_iff.1 h
  have hname := Encoder.fixed_addUtf8_iff.1 hn
  unfold Table.className
  rw [if_neg (ht.ne_zero hi)]
  exact (ht.reads_entry hi).bind ((ht.reads_utf8 hname).map some)

/-- A name with a descriptor is looked up. -/
theorem reads_nameAndType {name descriptor : Text}
    (h : Fixed P (pooled (Pool.addNameAndType name (some descriptor))) i) :
    ∃ n d, Reads (t.nameAndType i) [] (n, d) ∧ Reads (t.utf8 n) [] (g name) ∧
      Reads (t.utf8 d) [] (g descriptor) := by
  obtain ⟨n, hn, d, hd, hi⟩ := Encoder.fixed_addNameAndType_iff.1 h
  exact ⟨n, d, (ht.reads_entry hi).bind (.pure (n, d)), ht.reads_utf8 hn,
    ht.reads_utf8 (Encoder.fixed_addUtf8_iff.1 hd)⟩

/-- The class and the name of a member are looked up. -/
theorem reads_memberOf {owner name descriptor : Text} {o m : Nat} (interface : Bool)
    (ho : Fixed P (pooled (Pool.addClass (some owner))) o)
    (hm : Fixed P (pooled (Pool.addNameAndType name (some descriptor))) m) :
    Reads (t.memberOf interface o m) []
      ⟨some (g owner), g name, g descriptor, interface⟩ := by
  obtain ⟨n, d, hmember, hn, hd⟩ := ht.reads_nameAndType hm
  exact hmember.bind ((ht.reads_className_some ho).bind (hn.bind (hd.bind (.pure _))))

theorem reads_field {owner name descriptor : Text}
    (h : Fixed P (pooled (Pool.addField (some owner) name descriptor)) i) :
    Reads (t.member i) [] ⟨some (g owner), g name, g descriptor, false⟩ := by
  obtain ⟨o, ho, m, hm, hi⟩ := Encoder.fixed_addField_iff.1 h
  exact (ht.reads_entry hi).bind (ht.reads_memberOf false ho hm)

theorem reads_method {interface : Bool} {owner name descriptor : Text}
    (h : Fixed P (pooled (Pool.addMethod interface (some owner) name descriptor)) i) :
    Reads (t.member i) [] ⟨some (g owner), g name, g descriptor, interface⟩ := by
  obtain ⟨o, ho, m, hm, hi⟩ := Encoder.fixed_addMethod_iff.1 h
  cases interface with
  | false => exact (ht.reads_entry hi).bind (ht.reads_memberOf false ho hm)
  | true => exact (ht.reads_entry hi).bind (ht.reads_memberOf true ho hm)

end Carries

namespace Backs

variable {g : Text → Text} {t : Table} {P : Pool} (ht : Backs g t P) {i : Nat}
include ht

theorem of_fixed_addName {name : Option Text} (h : Fixed P (pooled (Pool.addName name)) i) :
    ∃ s, name = some s ∧ P.index[Pool.Entry.utf8 s]? = some i := by
  cases name with
  | none =>
    have hfound : P.index[Pool.Entry.irregular 1 [.null]]? = some i := Encoder.fixed_add_iff.1 h
    rw [ht.regular] at hfound
    cases hfound
  | some s => exact ⟨s, rfl, Encoder.fixed_addUtf8_iff.1 h⟩

theorem exists_of_fixed_addClass {name : Option Text}
    (h : Fixed P (pooled (Pool.addClass name)) i) : ∃ s, name = some s := by
  obtain ⟨n, hn, -⟩ := Encoder.fixed_addClass_iff.1 h
  obtain ⟨s, rfl, -⟩ := ht.of_fixed_addName hn
  exact ⟨s, rfl⟩

/-- A class is looked up; its name has to be there. -/
theorem reads_className {name : Option Text} (h : Fixed P (pooled (Pool.addClass name)) i) :
    ∃ s, name = some s ∧ Reads (t.className i) [] (some (g s)) := by
  obtain ⟨s, rfl⟩ := ht.exists_of_fixed_addClass h
  exact ⟨s, rfl, ht.reads_className_some h⟩

end Backs

end Decoding

end ClassTree
