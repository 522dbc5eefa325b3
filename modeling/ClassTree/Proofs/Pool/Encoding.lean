/-
# ClassTree.Proofs.Pool.Encoding — a constant pool read back

The bytes of a pool are read back as its entries, index by index. Two things are not as they were:
surrogates in texts that make a pair are joined, and a truth value in the place of a long has become
a number.
-/
import ClassTree.Decoding.Table
import ClassTree.Pool.Encoding
import ClassTree.Proofs.Decoder
import ClassTree.Proofs.Pool.Growth
import ClassTree.Proofs.Text.ModifiedUtf8

namespace ClassTree.Pool

open Decoding (Reads Decoder)
open Decoding.Table (readBody readEntry readEntries readPool)

namespace Entry

/-- What an entry is read back as. -/
def stored : Entry → Entry
  | .utf8 t => .utf8 (ModifiedUtf8.stored t)
  | e => e.key

/-- What is read back takes as many indices. -/
theorem isWide_stored (e : Entry) : e.stored.isWide = e.isWide := by
  unfold stored
  split
  · rfl
  · unfold key
    split
    · split <;> rfl
    · split <;> rfl
    · rfl

/-! ## One entry -/

/-- The bytes of an entry are its tag and its operands. -/
theorem encode?_eq_some_iff {e : Entry} {bytes : Bytes} :
    e.encode? = some bytes ↔ ∃ tag body, Bytes.unsigned? 1 e.tagCode = some tag ∧
      e.body? = some body ∧ bytes = tag ++ body := by
  unfold encode?
  simp only [bind, Option.bind_eq_some_iff, pure, Option.some.injEq]
  constructor
  · rintro ⟨tag, htag, body, hbody, rfl⟩
    exact ⟨tag, body, htag, hbody, rfl⟩
  · rintro ⟨tag, body, htag, hbody, rfl⟩
    exact ⟨tag, htag, body, hbody, rfl⟩

theorem indices?_eq_some_iff {a b : Nat} {bytes : Bytes} :
    indices? a b = some bytes ↔ ∃ first second, Bytes.unsigned? 2 a = some first ∧
      Bytes.unsigned? 2 b = some second ∧ bytes = first ++ second := by
  unfold indices? index?
  simp only [bind, Option.bind_eq_some_iff, pure, Option.some.injEq]
  constructor
  · rintro ⟨first, hfirst, second, hsecond, rfl⟩
    exact ⟨first, second, hfirst, hsecond, rfl⟩
  · rintro ⟨first, second, hfirst, hsecond, rfl⟩
    exact ⟨first, hfirst, second, hsecond, rfl⟩

/-- What is no text has no bytes in the place of one. -/
theorem irregularBody?_text (operands : List Constant) : irregularBody? 1 operands = none := by
  unfold irregularBody?
  split <;> first | contradiction | rfl

/-- What is no long has bytes in the place of one only if it is a truth value. -/
theorem irregularBody?_long {operands : List Constant} {bytes : Bytes}
    (h : irregularBody? 5 operands = some bytes) :
    ∃ b : Bool, operands = [.bool b] ∧ Bytes.signed? 8 b.toNat = some bytes := by
  unfold irregularBody? at h
  split at h
  · contradiction
  · contradiction
  · next b _ => exact ⟨b, rfl, h⟩
  · contradiction
  · next tag a b _ heq => cases h
  · cases h

/-- The operands of an entry are read back under its tag. -/
theorem reads_body {e : Entry} (he : e.Allowed .all) {bytes : Bytes} (h : e.body? = some bytes)
    (start : Nat) : ∃ tag : Tag, e.tagCode = tag.code ∧ Reads (readBody tag start) bytes e.stored := by
  have hindex {n : Nat} {entry : Nat → Entry} (h : Bytes.unsigned? 2 n = some bytes) :
      Reads (do return entry (← Decoder.u2)) bytes (entry n) := (Reads.of_unsigned? h).map entry
  have hindices {a b : Nat} {entry : Nat → Nat → Entry} (h : indices? a b = some bytes) :
      Reads (do
        let a ← Decoder.u2
        return entry a (← Decoder.u2)) bytes (entry a b) := by
    obtain ⟨first, second, hfirst, hsecond, rfl⟩ := indices?_eq_some_iff.1 h
    exact (Reads.of_unsigned? hfirst).bind ((Reads.of_unsigned? hsecond).map (entry a))
  have hfield {width n : Nat} (hn : n < 256 ^ width) : Reads (Decoder.unsigned width)
      (Bytes.ofNat width n) n := by
    have hread := Reads.unsigned (Bytes.length_ofNat width n)
    rwa [Bytes.toNat_ofNat, Nat.mod_eq_of_lt hn] at hread
  cases e with
  | utf8 t =>
    refine ⟨.utf8, rfl, ?_⟩
    unfold body? at h
    simp only [bind, Option.bind_eq_some_iff, pure, Option.some.injEq] at h
    obtain ⟨length, hlength, rfl⟩ := h
    refine (Reads.of_unsigned? hlength).bind ((Reads.bytes _).bind_nil ?_)
    rw [ModifiedUtf8.decode_encode]
    exact .pure _
  | integer n => exact ⟨.integer, rfl, (Reads.of_signed? h).map Entry.integer⟩
  | float x =>
    refine ⟨.float, rfl, ?_⟩
    cases h
    have hlt : x.bits.toNat < 256 ^ 4 := x.bits.toNat_lt
    have hread := (hfield hlt).map fun n => Entry.float ⟨UInt32.ofNat n⟩
    rwa [UInt32.ofNat_toNat] at hread
  | long n => exact ⟨.long, rfl, (Reads.of_signed? h).map Entry.long⟩
  | double x =>
    refine ⟨.double, rfl, ?_⟩
    cases h
    have hlt : x.bits.toNat < 256 ^ 8 := x.bits.toNat_lt
    have hread := (hfield hlt).map fun n => Entry.double ⟨UInt64.ofNat n⟩
    rwa [UInt64.ofNat_toNat] at hread
  | type n => exact ⟨.type, rfl, hindex h⟩
  | string n => exact ⟨.string, rfl, hindex h⟩
  | fieldref a b => exact ⟨.fieldref, rfl, hindices h⟩
  | methodref a b => exact ⟨.methodref, rfl, hindices h⟩
  | interfaceMethodref a b => exact ⟨.interfaceMethodref, rfl, hindices h⟩
  | nameAndType a b => exact ⟨.nameAndType, rfl, hindices h⟩
  | methodHandle kind target =>
    refine ⟨.methodHandle, rfl, ?_⟩
    unfold body? at h
    simp only [bind, Option.bind_eq_some_iff, pure, Option.some.injEq] at h
    obtain ⟨first, hfirst, second, hsecond, rfl⟩ := h
    obtain ⟨hlength, rfl⟩ := Bytes.unsigned?_eq_some_iff.1 hfirst
    exact (Reads.unsigned hlength).bind
      ((Reads.of_unsigned? hsecond).map (Entry.methodHandle first.toNat))
  | methodType n => exact ⟨.methodType, rfl, hindex h⟩
  | dynamic a b => exact ⟨.dynamic, rfl, hindices h⟩
  | invokeDynamic a b => exact ⟨.invokeDynamic, rfl, hindices h⟩
  | module_ n => exact ⟨.module_, rfl, hindex h⟩
  | package n => exact ⟨.package, rfl, hindex h⟩
  | irregular tag operands =>
    rcases he with rfl | rfl
    · rw [body?, irregularBody?_text] at h
      cases h
    · obtain ⟨b, rfl, hbody⟩ := irregularBody?_long h
      refine ⟨.long, rfl, ?_⟩
      have hread := (Reads.of_signed? hbody).map Entry.long
      exact hread

/-- An entry is read back from its bytes. -/
theorem reads_entry {e : Entry} (he : e.Allowed .all) {bytes : Bytes} (h : e.encode? = some bytes) :
    Reads readEntry bytes e.stored := by
  obtain ⟨tag, body, htag, hbody, rfl⟩ := encode?_eq_some_iff.1 h
  refine Reads.at_position fun start => ?_
  obtain ⟨t, ht, hread⟩ := reads_body he hbody start
  rw [ht] at htag
  have hcode : Tag.ofCode? t.code = some t := by cases t <;> rfl
  refine (Reads.of_unsigned? htag).bind ?_
  simp only [hcode]
  exact hread

end Entry

/-! ## All entries -/

/-- Entries that all have bytes have them one by one. -/
theorem forall₂_of_mapM_eq_some {entries : List Entry} {parts : List Bytes}
    (h : entries.mapM Entry.encode? = some parts) :
    List.Forall₂ (fun e part => e.encode? = some part) entries parts := by
  induction entries generalizing parts with
  | nil =>
    rw [List.mapM_nil] at h
    cases h
    exact .nil
  | cons e entries ih =>
    rw [List.mapM_cons] at h
    simp only [bind, Option.bind_eq_some_iff, pure, Option.some.injEq] at h
    obtain ⟨part, hpart, parts, hparts, rfl⟩ := h
    exact .cons hpart (ih hparts)

/-- Entries are read back one after another; each fills its slots. -/
theorem reads_entries {entries : List Entry} (hentries : ∀ e ∈ entries, e.Allowed .all)
    {parts : List Bytes} (h : List.Forall₂ (fun e part => e.encode? = some part) entries parts)
    (acc : Array (Option Entry)) :
    Reads (readEntries acc (slots entries).length) parts.flatten
      (acc ++ ((slots entries).map (Option.map Entry.stored)).toArray) := by
  induction h generalizing acc with
  | nil =>
    rw [show (acc ++ _ : Array (Option Entry)) = acc by simp [slots]]
    exact .pure acc
  | @cons e part entries parts hpart _ ih =>
    have hread := Entry.reads_entry (hentries e (by simp)) hpart
    have hrest := fun acc => ih (fun e' he' => hentries e' (by simp [he'])) acc
    have hwide := e.isWide_stored
    cases hw : e.isWide with
    | true =>
      rw [hw] at hwide
      have hslots : slots (e :: entries) = some e :: none :: slots entries := by simp [slots, hw]
      rw [hslots, List.length_cons, List.length_cons, readEntries]
      have happend : (acc ++ (List.map (Option.map Entry.stored)
          (some e :: none :: slots entries)).toArray : Array (Option Entry)) =
          (acc.push (some e.stored)).push none ++
            ((slots entries).map (Option.map Entry.stored)).toArray := by
        apply Array.ext'
        simp
      rw [happend]
      refine hread.bind ?_
      rw [if_pos hwide]
      exact hrest _
    | false =>
      rw [hw] at hwide
      have hslots : slots (e :: entries) = some e :: slots entries := by simp [slots, hw]
      have happend : (acc ++ (List.map (Option.map Entry.stored)
          (some e :: slots entries)).toArray : Array (Option Entry)) =
          acc.push (some e.stored) ++ ((slots entries).map (Option.map Entry.stored)).toArray := by
        apply Array.ext'
        simp
      rw [hslots, happend, List.length_cons]
      -- the reader looks at two slots at a time, so a last one by itself is a case of its own
      cases hlast : (slots entries).length with
      | zero =>
        have hnone := hrest (acc.push (some e.stored))
        rw [hlast] at hnone
        rw [readEntries]
        refine hread.bind ?_
        rw [if_neg (by simp [hwide])]
        exact hnone
      | succ n =>
        have hmore := hrest (acc.push (some e.stored))
        rw [hlast] at hmore
        rw [readEntries]
        refine hread.bind ?_
        rw [if_neg (by simp [hwide])]
        exact hmore

/-- A pool is read back from its bytes, entry by entry at the same indices. Texts come back with
their pairs joined, as they are stored; a long and a double take up two indices, of which the second
is empty on both sides. -/
theorem reads_pool {p : Pool} (hp : p.WellFormed) (hallowed : ∀ e, some e ∈ p.entries →
    e.Allowed .all) {bytes : Bytes} (h : p.encode? = some bytes) :
    Reads readPool bytes (p.entries.map (Option.map Entry.stored)) := by
  obtain ⟨entries, hentries⟩ := hp.shape
  have hmem {e : Entry} (he : e ∈ entries) : some e ∈ p.entries := by
    rw [← Array.mem_toList_iff, hentries]
    exact List.mem_cons_of_mem _ (mem_slots_iff.2 he)
  have hfilter : p.entries.toList.filterMap id = entries := by
    rw [hentries]
    unfold slots
    simp only [List.filterMap_cons, id_eq]
    clear hentries hmem h
    induction entries with
    | nil => rfl
    | cons e entries ih =>
      rw [List.flatMap_cons, List.filterMap_append, ih]
      split <;> rfl
  unfold encode? at h
  simp only [bind, Option.bind_eq_some_iff, pure, Option.some.injEq, hfilter] at h
  obtain ⟨count, hcount, parts, hparts, rfl⟩ := h
  have hsize : p.size = (slots entries).length + 1 := by
    unfold size
    rw [← Array.length_toList, hentries, List.length_cons]
  rw [hsize] at hcount
  have hall := forall₂_of_mapM_eq_some hparts
  have happend : p.entries.map (Option.map Entry.stored) =
      #[none] ++ ((slots entries).map (Option.map Entry.stored)).toArray := by
    apply Array.ext'
    simp [hentries]
  rw [happend]
  exact (Reads.of_unsigned? hcount).bind
    (reads_entries (fun e he => hallowed e (hmem he)) hall #[none])

/-- Only a pool whose entries all have bytes is written. -/
theorem encode_eq_ok_iff {p : Pool} {bytes : Bytes} :
    p.encode = .ok bytes ↔ p.encode? = some bytes := by
  unfold Pool.encode
  generalize p.encode? = bytes?
  cases bytes? <;> simp [Pool.known]

end ClassTree.Pool
