/-
# ClassTree.Proofs.Pool.Seed — pools that begin with the entries of a class file

A pool that is seeded with entries that have been read finds each of them at its first index. No
such entry is irregular, and every text among them is whole, so these entries are read back as they
are.

An entry can be held whatever its numbers are, but only numbers in the range of their fields can be
written, and only such numbers are ever read. The same goes for bootstrap methods.
-/
import ClassTree.Proofs.Class.Sound
import ClassTree.Proofs.Decoding.Fault
import ClassTree.Proofs.Pool.Encoding

namespace ClassTree.Pool

open Decoding (Cursor Decoder)
open Decoding.Decoder (bind_eq_ok_iff)
open Decoding.Table (readBody readEntry readEntries readPool)

/-! ## Entries that have been read -/

/-- An entry as it is read: no operand is irregular, and a text is whole. -/
def Entry.IsRead : Entry → Prop
  | .utf8 t => t.IsWhole
  | .irregular _ _ => False
  | _ => True

/-- An entry as it is read is found under itself. -/
theorem Entry.IsRead.key_eq {e : Entry} (h : e.IsRead) : e.key = e := by
  cases e <;> first | rfl | exact absurd h id

/-- An entry as it is read is read back as it is. -/
theorem Entry.IsRead.stored_eq {e : Entry} (h : e.IsRead) : e.stored = e := by
  cases e with
  | utf8 t => rw [Entry.stored, ModifiedUtf8.stored_of_isWhole h]
  | irregular tag operands => exact absurd h id
  | _ => rfl

theorem Entry.IsRead.allowed {e : Entry} (h : e.IsRead) : e.Allowed .all := by
  cases e <;> first | exact absurd h id | trivial

/-- What is read back is an entry as it is read, unless it cannot be written. -/
theorem Entry.isRead_stored {e : Entry} (he : e.Allowed .all) {bytes : Bytes}
    (h : e.body? = some bytes) : e.stored.IsRead := by
  cases e with
  | utf8 t => exact ModifiedUtf8.isWhole_of_decode (ModifiedUtf8.decode_encode t)
  | irregular tag operands =>
    rcases he with rfl | rfl
    · rw [body?, irregularBody?_text] at h
      cases h
    · obtain ⟨b, rfl, -⟩ := irregularBody?_long h
      trivial
  | _ => trivial

/-- Reading gives entries as they are read. -/
theorem isRead_of_readEntry {c c' : Cursor} {e : Entry} (h : readEntry c = .ok (e, c')) :
    e.IsRead := by
  unfold readEntry at h
  obtain ⟨start, c₁, -, h⟩ := bind_eq_ok_iff.1 h
  obtain ⟨code, c₂, -, h⟩ := bind_eq_ok_iff.1 h
  cases htag : Tag.ofCode? code with
  | none =>
    rw [htag] at h
    cases h
  | some tag =>
    rw [htag] at h
    have h : readBody tag start c₂ = .ok (e, c') := h
    cases tag with
    | utf8 =>
      obtain ⟨length, c₃, -, h⟩ := bind_eq_ok_iff.1 h
      obtain ⟨data, c₄, -, h⟩ := bind_eq_ok_iff.1 h
      cases hdata : ModifiedUtf8.decode data with
      | error fault =>
        rw [hdata] at h
        cases h
      | ok t =>
        rw [hdata] at h
        cases h
        exact ModifiedUtf8.isWhole_of_decode hdata
    | fieldref | methodref | interfaceMethodref | nameAndType | methodHandle | dynamic
    | invokeDynamic =>
      obtain ⟨first, c₃, -, h⟩ := bind_eq_ok_iff.1 h
      obtain ⟨second, c₄, -, h⟩ := bind_eq_ok_iff.1 h
      cases h
      trivial
    | _ =>
      obtain ⟨operand, c₃, -, h⟩ := bind_eq_ok_iff.1 h
      cases h
      trivial

/-- Reading fills the slots of entries as they are read. -/
theorem exists_slots_of_readEntries {count : Nat} {acc entries : Array (Option Entry)}
    {c c' : Cursor} (h : readEntries acc count c = .ok (entries, c')) :
    ∃ es, entries.toList = acc.toList ++ slots es ∧ ∀ e ∈ es, e.IsRead := by
  match count with
  | 0 =>
    cases h
    exact ⟨[], by simp [slots], by simp⟩
  | 1 =>
    rw [readEntries] at h
    obtain ⟨e, c₁, he, h⟩ := bind_eq_ok_iff.1 h
    have hread := isRead_of_readEntry he
    split at h
    · cases h
    · next hwide =>
      cases h
      exact ⟨[e], by simp [slots, hwide], by simpa using hread⟩
  | n + 2 =>
    rw [readEntries] at h
    obtain ⟨e, c₁, he, h⟩ := bind_eq_ok_iff.1 h
    have hread := isRead_of_readEntry he
    have hcons {es : List Entry} (hall : ∀ e ∈ es, e.IsRead) : ∀ e' ∈ e :: es, e'.IsRead := by
      intro e' he'
      rcases List.mem_cons.1 he' with rfl | he'
      · exact hread
      · exact hall e' he'
    split at h
    · next hwide =>
      obtain ⟨es, hes, hall⟩ := exists_slots_of_readEntries h
      exact ⟨e :: es, by simp [hes, slots, hwide], hcons hall⟩
    · next hwide =>
      obtain ⟨es, hes, hall⟩ := exists_slots_of_readEntries h
      exact ⟨e :: es, by simp [hes, slots, hwide], hcons hall⟩

/-- Entries by index as they are read from a class file, or none at all. -/
def IsSeed (entries : List (Option Entry)) : Prop :=
  entries = [] ∨ ∃ es, entries = none :: slots es ∧ ∀ e ∈ es, e.IsRead

/-- The pool of a class file is a seed. -/
theorem isSeed_of_readPool {entries : Array (Option Entry)} {c c' : Cursor}
    (h : readPool c = .ok (entries, c')) : IsSeed entries.toList := by
  unfold readPool at h
  obtain ⟨count, c₁, -, h⟩ := bind_eq_ok_iff.1 h
  cases count with
  | zero => cases h
  | succ n =>
    obtain ⟨es, hes, hall⟩ := exists_slots_of_readEntries h
    exact .inr ⟨es, hes, hall⟩

/-! ## Seeding -/

/-- Seeding with entries appends them, and each is found at its first index. -/
theorem index_foldl_seedEntry {p : Pool} (seed : List (Option Entry))
    (hp : ∀ key, p.index[key]? = firstIndex? p.entries.toList key) :
    (∀ key, (seed.foldl seedEntry p).index[key]? =
      firstIndex? (seed.foldl seedEntry p).entries.toList key) ∧
    (seed.foldl seedEntry p).entries.toList = p.entries.toList ++ seed ∧
    (seed.foldl seedEntry p).bootstrap = p.bootstrap ∧
    (seed.foldl seedEntry p).bootstrapIndex = p.bootstrapIndex := by
  induction seed generalizing p with
  | nil => simpa using hp
  | cons entry seed ih =>
    have hstep : ∀ key, (p.seedEntry entry).index[key]? =
        firstIndex? (p.seedEntry entry).entries.toList key := by
      intro key
      cases entry with
      | none =>
        show p.index[key]? = firstIndex? (p.entries.push none).toList key
        rw [Array.toList_push, firstIndex?_append_none, hp]
      | some e =>
        show (if p.index.contains e.key then p.index else p.index.insert e.key p.entries.size)[key]? =
          firstIndex? (p.entries.push (some e)).toList key
        rw [Array.toList_push, firstIndex?_append_some, ← hp key]
        split
        · next hfound =>
          -- an entry whose key is known comes behind the one that has it
          rw [Std.HashMap.contains_eq_isSome_getElem?] at hfound
          by_cases heq : e.key = key
          · subst heq
            obtain ⟨i, hi⟩ := Option.isSome_iff_exists.1 hfound
            simp [hi]
          · simp [heq]
        · next hmissing =>
          rw [Std.HashMap.contains_eq_isSome_getElem?, Bool.not_eq_true, Option.isSome_eq_false_iff,
            Option.isNone_iff_eq_none] at hmissing
          rw [Std.HashMap.getElem?_insert]
          by_cases heq : e.key = key
          · subst heq
            simp [hmissing]
          · simp [heq]
    obtain ⟨hindex, hentries, hbootstrap, hbootstrapIndex⟩ := ih hstep
    refine ⟨hindex, ?_, hbootstrap, hbootstrapIndex⟩
    rw [List.foldl_cons, hentries]
    show (p.entries.push entry).toList ++ seed = _
    simp

/-- Seeding with bootstrap methods appends them, and each is found at its first index. -/
theorem bootstrapIndex_foldl_seedBootstrap {p : Pool} (seed : List Bootstrap)
    (hp : ∀ method, p.bootstrapIndex[method]? = p.bootstrap.toList.findIdx? (· = method)) :
    (∀ method, (seed.foldl seedBootstrap p).bootstrapIndex[method]? =
      (seed.foldl seedBootstrap p).bootstrap.toList.findIdx? (· = method)) ∧
    (seed.foldl seedBootstrap p).bootstrap.toList = p.bootstrap.toList ++ seed ∧
    (seed.foldl seedBootstrap p).entries = p.entries ∧
    (seed.foldl seedBootstrap p).index = p.index := by
  induction seed generalizing p with
  | nil => simpa using hp
  | cons m seed ih =>
    have hstep : ∀ method, (p.seedBootstrap m).bootstrapIndex[method]? =
        (p.seedBootstrap m).bootstrap.toList.findIdx? (· = method) := by
      intro method
      show (if p.bootstrapIndex.contains m then p.bootstrapIndex
        else p.bootstrapIndex.insert m p.bootstrap.size)[method]? =
          (p.bootstrap.push m).toList.findIdx? (· = method)
      rw [Array.toList_push, List.findIdx?_append, ← hp method]
      split
      · next hfound =>
        rw [Std.HashMap.contains_eq_isSome_getElem?] at hfound
        by_cases heq : m = method
        · subst heq
          obtain ⟨i, hi⟩ := Option.isSome_iff_exists.1 hfound
          simp [hi]
        · simp [heq]
      · next hmissing =>
        rw [Std.HashMap.contains_eq_isSome_getElem?, Bool.not_eq_true, Option.isSome_eq_false_iff,
          Option.isNone_iff_eq_none] at hmissing
        rw [Std.HashMap.getElem?_insert]
        by_cases heq : m = method
        · subst heq
          simp [hmissing]
        · simp [heq]
    obtain ⟨hindex, hbootstrap, hentries, hkeys⟩ := ih hstep
    refine ⟨hindex, ?_, hentries, hkeys⟩
    rw [List.foldl_cons, hbootstrap]
    show (p.bootstrap.push m).toList ++ seed = _
    simp

/-- A seeded pool is well-formed and holds its seed: the entries at their indices, the empty slot at
index zero included, and the bootstrap methods in their order. Of equal entries the first one is
found. -/
theorem wellFormed_seeded {entries : List (Option Entry)} (h : IsSeed entries)
    (bootstrap : List Bootstrap) :
    (seeded entries bootstrap).WellFormed ∧
      (seeded entries bootstrap).entries.toList = none :: seedEntries entries ∧
      (seeded entries bootstrap).bootstrap.toList = bootstrap := by
  have hempty : ∀ key, empty.index[key]? = firstIndex? empty.entries.toList key := by
    intro key
    simp [empty, firstIndex?]
  obtain ⟨hindex, hentries, hbootstrap, hbootstrapIndex⟩ :=
    index_foldl_seedEntry (seedEntries entries) hempty
  have hsites : ∀ method, ((seedEntries entries).foldl seedEntry empty).bootstrapIndex[method]? =
      ((seedEntries entries).foldl seedEntry empty).bootstrap.toList.findIdx? (· = method) := by
    intro method
    rw [hbootstrap, hbootstrapIndex]
    simp [empty]
  obtain ⟨hindex', hbootstrap', hentries', hkeys'⟩ :=
    bootstrapIndex_foldl_seedBootstrap bootstrap hsites
  have hlist : (seeded entries bootstrap).entries.toList = none :: seedEntries entries := by
    unfold seeded
    rw [hentries', hentries]
    rfl
  refine ⟨⟨?_, hindex', ?_⟩, hlist, ?_⟩
  · intro key
    unfold seeded
    rw [hkeys', hentries', hindex]
  · rw [hlist]
    rcases h with rfl | ⟨es, rfl, -⟩
    · exact ⟨[], rfl⟩
    · exact ⟨es, rfl⟩
  · unfold seeded
    rw [hbootstrap', hbootstrap]
    rfl

/-- Every entry of a seeded pool is as it is read. -/
theorem isRead_of_mem_seeded {entries : List (Option Entry)} (h : IsSeed entries)
    {bootstrap : List Bootstrap} {e : Entry} (he : some e ∈ (seeded entries bootstrap).entries) :
    e.IsRead := by
  rw [← Array.mem_toList_iff, (wellFormed_seeded h bootstrap).2.1] at he
  rcases h with rfl | ⟨es, rfl, hall⟩
  · simp [seedEntries] at he
  · have hmem : some e ∈ slots es := by simpa [seedEntries] using he
    exact hall e (mem_slots_iff.1 hmem)

end ClassTree.Pool

namespace ClassTree.Pool

open Decoding Decoder

/-- Every operand but a text is in the range of its field. -/
def Entry.InRange : Entry → Prop
  | .utf8 _ | .float _ | .double _ => True
  | .integer n => IsInt n
  | .long n => IsLong n
  | .type n | .string n | .methodType n | .module_ n | .package n => n < 0x10000
  | .fieldref a b | .methodref a b | .interfaceMethodref a b | .nameAndType a b | .dynamic a b
  | .invokeDynamic a b => a < 0x10000 ∧ b < 0x10000
  | .methodHandle kind target => (0 ≤ kind ∧ kind < 0x100) ∧ target < 0x10000
  | .irregular _ _ => False

/-- A text has no more bytes than its length field has room for. -/
def Entry.IsShort : Entry → Prop
  | .utf8 t => (ModifiedUtf8.encode t).length < 0x10000
  | _ => True

/-! ## Reading -/

/-- The operands of an entry are read from their fields. -/
theorem finds_readBody (tag : Tag) (start : Nat) :
    Finds (Table.readBody tag start) fun e => e.InRange ∧ e.IsShort := by
  have hpair {make : Nat → Nat → Entry}
      (hmake : ∀ a b, a < 0x10000 → b < 0x10000 → (make a b).InRange ∧ (make a b).IsShort) :
      Finds (do let a ← u2; return make a (← u2)) fun e => e.InRange ∧ e.IsShort :=
    Finds.u2.bind fun a ha => Finds.u2.map fun b hb => hmake a b ha hb
  cases tag with
  | utf8 =>
    refine Finds.u2_bind fun length _ => ?_
    refine (Finds.bytes length).bind fun data hdata => ?_
    cases ht : ModifiedUtf8.decode data with
    | ok t =>
      have hle := ModifiedUtf8.length_encode_le_of_decode ht
      exact .pure ⟨trivial, show (ModifiedUtf8.encode t).length < 0x10000 by omega⟩
    | error fault => exact .refuse _ _
  | integer => exact (Finds.signed 3).map fun n hn => ⟨⟨by omega, by omega⟩, trivial⟩
  | float => exact Finds.u4.map fun _ _ => ⟨trivial, trivial⟩
  | long => exact (Finds.signed 7).map fun n hn => ⟨⟨by omega, by omega⟩, trivial⟩
  | double => exact (Finds.unsigned 8).map fun _ _ => ⟨trivial, trivial⟩
  | type | string | methodType | module_ | package => exact Finds.u2.map fun n hn => ⟨hn, trivial⟩
  | methodHandle =>
    refine Finds.u1.bind fun kind hkind => ?_
    exact Finds.u2.map fun n hn => ⟨⟨⟨by omega, by omega⟩, hn⟩, trivial⟩
  | fieldref | methodref | interfaceMethodref | nameAndType | dynamic | invokeDynamic =>
    exact hpair fun a b ha hb => ⟨⟨ha, hb⟩, trivial⟩

/-- An entry that can be read from a class file. -/
structure Entry.IsReadable (e : Entry) : Prop where
  inRange : e.InRange
  isShort : e.IsShort
  isRead : e.IsRead

theorem finds_readEntry : Finds Table.readEntry Entry.IsReadable := by
  have hrange : Finds Table.readEntry fun e => e.InRange ∧ e.IsShort := by
    refine Finds.position_bind fun start => ?_
    refine Finds.u1.bind fun code _ => ?_
    cases Tag.ofCode? code with
    | some tag => exact finds_readBody tag start
    | none => exact .refuse _ _
  exact (hrange.and fun _ _ _ h => isRead_of_readEntry h).imp fun _ h => ⟨h.1.1, h.1.2, h.2⟩

/-- Entries by index that can be read. -/
def AreReadable (entries : Array (Option Entry)) : Prop :=
  ∀ e, some e ∈ entries → e.IsReadable

theorem AreReadable.push {entries : Array (Option Entry)} (h : AreReadable entries) {e : Entry}
    (he : e.IsReadable) : AreReadable (entries.push (some e)) := by
  intro e' he'
  rcases Array.mem_push.1 he' with he' | he'
  · exact h e' he'
  · exact Option.some.inj he' ▸ he

theorem AreReadable.push_none {entries : Array (Option Entry)} (h : AreReadable entries) :
    AreReadable (entries.push none) := by
  intro e he
  rcases Array.mem_push.1 he with he | he
  · exact h e he
  · cases he

theorem finds_readEntries {entries : Array (Option Entry)} (h : AreReadable entries) (count : Nat) :
    Finds (Table.readEntries entries count) AreReadable := by
  match count with
  | 0 => exact .pure h
  | 1 =>
    unfold Table.readEntries
    refine finds_readEntry.bind fun e he => ?_
    exact Finds.ite (fun _ => .refuseHere _) fun _ => .pure (h.push he)
  | n + 2 =>
    unfold Table.readEntries
    refine finds_readEntry.bind fun e he => ?_
    exact Finds.ite (fun _ => finds_readEntries (h.push he).push_none n)
      fun _ => finds_readEntries (h.push he) (n + 1)

theorem finds_readPool : Finds Table.readPool AreReadable := by
  refine Finds.u2_bind fun count _ => ?_
  cases count with
  | zero => exact .refuseHere _
  | succ n => exact finds_readEntries (by simp [AreReadable]) n

end ClassTree.Pool

namespace ClassTree

/-! ## Bootstrap methods -/

/-- The numbers of a bootstrap method fit their fields. -/
structure Bootstrap.IsFit (b : Bootstrap) : Prop where
  handle : b.handle < 0x10000
  length : b.arguments.length < 0x10000
  arguments : ∀ i ∈ b.arguments, i < 0x10000

theorem Decoding.finds_readBootstrap : Finds readBootstrap Bootstrap.IsFit :=
  Finds.u2_bind fun _ hhandle => (Finds.listOf Finds.u2).map fun _ h => ⟨hhandle, h.1, h.2⟩

end ClassTree
