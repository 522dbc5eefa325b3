/-
# ClassTree.Proofs.Pool.Sound — pools that can be written and read back

A pool is *sound* if its tables agree with its lists, its texts are whole, and its operands fit
their fields as long as there are no more indices than a field has room for. A pool that is seeded
with what has been read is sound, and adding what is in range keeps it so. The bytes of a sound pool
are read back as exactly its entries.
-/
import ClassTree.Proofs.Decoding.ClassFile
import ClassTree.Proofs.Pool.Seed

namespace ClassTree.Pool

open Decoding (Finds Reads Table)

/-! ## Second slots -/

/-- The index behind that of a long or a double. -/
def IsSecondSlot (p : Pool) (i : Nat) : Prop :=
  ∃ j e, i = j + 1 ∧ p.entries[j]? = some (some e) ∧ e.isWide = true

/-- A long or a double leaves the slot behind it empty. -/
theorem getElem?_slots_succ {entries : List Entry} {j : Nat} {e : Entry}
    (h : (slots entries)[j]? = some (some e)) (hwide : e.isWide = true) :
    (slots entries)[j + 1]? = some none := by
  -- one entry after the other; an entry takes one slot or two
  induction entries generalizing j with
  | nil => simp [slots] at h
  | cons first entries ih =>
    by_cases hfirst : first.isWide = true
    · have hslots : slots (first :: entries) = some first :: none :: slots entries := by
        simp [slots, hfirst]
      rw [hslots] at h ⊢
      rcases j with _ | _ | j
      · rfl
      · simp at h
      · exact ih h
    · have hslots : slots (first :: entries) = some first :: slots entries := by
        simp [slots, hfirst]
      rw [hslots] at h ⊢
      rcases j with _ | j
      · obtain rfl : first = e := by simpa using h
        exact absurd hwide hfirst
      · exact ih h

theorem WellFormed.getElem?_of_isSecondSlot {p : Pool} (hp : p.WellFormed) {i : Nat}
    (h : p.IsSecondSlot i) : p.entries[i]? = some none := by
  obtain ⟨j, e, rfl, hj, hwide⟩ := h
  obtain ⟨entries, hentries⟩ := hp.shape
  rw [← Array.getElem?_toList, hentries] at hj ⊢
  cases j with
  | zero => cases hj
  | succ j => exact getElem?_slots_succ hj hwide

/-- A bootstrap method that is found stands where it is found. -/
theorem WellFormed.getElem?_of_bootstrapIndex {p : Pool} (hp : p.WellFormed) {method : Bootstrap}
    {i : Nat} (h : p.bootstrapIndex[method]? = some i) : p.bootstrap[i]? = some method := by
  rw [hp.bootstrapIndex] at h
  obtain ⟨hi, heq, -⟩ := List.findIdx?_eq_some_iff_getElem.1 h
  rw [← Array.getElem?_toList, List.getElem?_eq_getElem hi]
  simpa using heq

/-! ## Soundness -/

/-- A pool whose texts are whole and whose operands fit their fields, as long as its own indices do.
-/
structure IsSound (p : Pool) : Prop where
  wellFormed : p.WellFormed
  isRead : ∀ e, some e ∈ p.entries → e.IsRead
  inRange : p.size ≤ 0x10000 → ∀ e, some e ∈ p.entries → e.InRange

namespace IsSound

variable {p : Pool} (hp : p.IsSound)
include hp

theorem getElem?_of_index {key : Entry} {i : Nat} (h : p.index[key]? = some i) :
    p.entries[i]? = some (some key) := by
  rw [hp.wellFormed.index] at h
  obtain ⟨e, he, rfl⟩ := getElem?_of_firstIndex? h
  rw [Array.getElem?_toList] at he
  rw [he, (hp.isRead e (Array.mem_of_getElem? he)).key_eq]

/-- Adding an entry whose operands are in range keeps a pool sound. -/
protected theorem insert {e : Entry} (he : e.IsRead) (hrange : p.size ≤ 0x10000 → e.InRange) :
    (p.insert e).2.IsSound := by
  refine ⟨hp.wellFormed.insert e, ?_, ?_⟩
  · intro e' he'
    rcases mem_of_mem_insert he' with he' | rfl
    · exact hp.isRead e' he'
    · exact he
  · intro hsize e' he'
    have hle : p.size ≤ 0x10000 := by
      have hlength := (begins_insert p e).entries.length_le
      rw [Array.length_toList, Array.length_toList] at hlength
      exact Nat.le_trans hlength hsize
    rcases mem_of_mem_insert he' with he' | rfl
    · exact hp.inRange hle e' he'
    · exact hrange hle

/-- Adding a bootstrap method keeps a pool sound. -/
protected theorem insertBootstrap (m : Bootstrap) : (p.insertBootstrap m).2.IsSound := by
  have hentries := entries_insertBootstrap p m
  refine ⟨hp.wellFormed.insertBootstrap m, ?_, ?_⟩
  · rw [hentries]
    exact hp.isRead
  · unfold size
    rw [hentries]
    exact hp.inRange

end IsSound

/-! ## Seeds -/

/-- A pool to begin with: the empty one, or one that is seeded with the entries and the bootstrap
methods of a class that has been read. -/
def IsStart (p : Pool) : Prop :=
  p = empty ∨ ∃ bytes c, Class.ofBytes bytes = .ok c ∧ p = seeded c.layout.pool c.layout.bootstrap

/-- A pool seeded with entries that can be read is sound. -/
theorem isSound_seeded {entries : List (Option Entry)} (hseed : IsSeed entries)
    (hreadable : ∀ e, some e ∈ entries → e.IsReadable) (bootstrap : List Bootstrap) :
    (seeded entries bootstrap).IsSound := by
  obtain ⟨hwell, hentries, -⟩ := wellFormed_seeded hseed bootstrap
  refine ⟨hwell, fun e he => isRead_of_mem_seeded hseed he, ?_⟩
  intro _ e he
  rw [← Array.mem_toList_iff, hentries] at he
  -- a seed has the empty slot at index zero, or it has nothing
  rcases hseed with rfl | ⟨es, rfl, -⟩
  · simp [seedEntries] at he
  · exact (hreadable e he).inRange

theorem IsStart.isSound {p : Pool} (h : p.IsStart) : p.IsSound := by
  rcases h with rfl | ⟨bytes, c, hc, rfl⟩
  · exact isSound_seeded (.inl rfl) nofun []
  · refine isSound_seeded (Class.isSeed_of_ofBytes hc) ?_ _
    obtain ⟨entries, hpool, heq⟩ := Class.exists_poolOf_of_ofBytes hc
    obtain ⟨k, hread⟩ := Outline.readPool_of_poolOf hpool
    intro e he
    rw [heq, Array.mem_toList_iff] at he
    exact (finds_readPool.of_eq_ok hread).2 e he

/-- A pool that comes from one to begin with by adding to it. -/
def IsReachable (p : Pool) : Prop := ∃ start, start.IsStart ∧ Grows .all start p

namespace IsReachable

variable {p q : Pool}

theorem grows (hp : p.IsReachable) (h : Grows .all p q) : q.IsReachable := by
  obtain ⟨start, hstart, hgrows⟩ := hp
  exact ⟨start, hstart, hgrows.trans h⟩

theorem wellFormed (hp : p.IsReachable) : p.WellFormed := by
  obtain ⟨start, hstart, hgrows⟩ := hp
  exact hgrows.wellFormed hstart.isSound.wellFormed

theorem allowed (hp : p.IsReachable) {e : Entry} (he : some e ∈ p.entries) : e.Allowed .all := by
  obtain ⟨start, hstart, hgrows⟩ := hp
  rcases hgrows.mem_entries he with he | he
  · exact (hstart.isSound.isRead e he).allowed
  · exact he

end IsReachable

/-! ## Writing -/

/-- An entry in range whose text fits its length field has bytes. -/
theorem Entry.InRange.exists_encode? {e : Entry} (h : e.InRange)
    (hshort : ∀ t, e = .utf8 t → (ModifiedUtf8.encode t).length ≤ 0xFFFF) :
    ∃ bytes, e.encode? = some bytes := by
  have hindex {n : Nat} (hn : n < 0x10000) : ∃ bytes, index? n = some bytes :=
    Bytes.exists_unsigned? 2 n ⟨by omega, by omega⟩
  have hindices {a b : Nat} (ha : a < 0x10000) (hb : b < 0x10000) :
      ∃ bytes, indices? a b = some bytes := by
    obtain ⟨first, hfirst⟩ := hindex ha
    obtain ⟨second, hsecond⟩ := hindex hb
    exact ⟨_, indices?_eq_some_iff.2 ⟨first, second, hfirst, hsecond, rfl⟩⟩
  have hbody : ∃ body, e.body? = some body := by
    cases e with
    | utf8 t =>
      have hle := hshort t rfl
      obtain ⟨length, hlength⟩ := Bytes.exists_unsigned? 2 (ModifiedUtf8.encode t).length
        ⟨by omega, by omega⟩
      refine ⟨length ++ ModifiedUtf8.encode t, ?_⟩
      simp [body?, hlength]
    | integer n => exact Bytes.exists_signed? 4 n ⟨by have := h.1; omega, by have := h.2; omega⟩
    | float x => exact ⟨_, rfl⟩
    | long n => exact Bytes.exists_signed? 8 n ⟨by have := h.1; omega, by have := h.2; omega⟩
    | double x => exact ⟨_, rfl⟩
    | type n | string n | methodType n | module_ n | package n => exact hindex h
    | fieldref a b | methodref a b | interfaceMethodref a b | nameAndType a b | dynamic a b
    | invokeDynamic a b => exact hindices h.1 h.2
    | methodHandle kind target =>
      obtain ⟨first, hfirst⟩ := Bytes.exists_unsigned? 1 kind
        ⟨h.1.1, by have := h.1.2; omega⟩
      obtain ⟨second, hsecond⟩ := hindex h.2
      refine ⟨first ++ second, ?_⟩
      simp [body?, hfirst, hsecond]
    | irregular tag operands => exact absurd h id
  obtain ⟨tag, htag⟩ : ∃ tag, Bytes.unsigned? 1 e.tagCode = some tag := by
    cases e with
    | irregular tag operands => exact absurd h id
    | _ => exact ⟨_, rfl⟩
  obtain ⟨body, hbody⟩ := hbody
  exact ⟨_, Entry.encode?_eq_some_iff.2 ⟨tag, body, htag, hbody, rfl⟩⟩

/-- Entries that all have bytes have them together. -/
theorem exists_mapM_encode? {entries : List Entry}
    (h : ∀ e ∈ entries, ∃ bytes, e.encode? = some bytes) :
    ∃ parts, entries.mapM Entry.encode? = some parts := by
  induction entries with
  | nil => exact ⟨[], rfl⟩
  | cons e entries ih =>
    obtain ⟨part, hpart⟩ := h e (by simp)
    obtain ⟨parts, hparts⟩ := ih fun e' he' => h e' (by simp [he'])
    exact ⟨part :: parts, by simp [List.mapM_cons, hpart, hparts]⟩

/-- A sound pool that is small enough has bytes, and they are read back as exactly its entries. -/
theorem IsSound.exists_encode {p : Pool} (hp : p.IsSound) (hsize : p.size ≤ 0xFFFF)
    (hshort : ∀ t, some (.utf8 t) ∈ p.entries → (ModifiedUtf8.encode t).length ≤ 0xFFFF) :
    ∃ bytes, p.encode = .ok bytes ∧ Reads Table.readPool bytes p.entries := by
  obtain ⟨count, hcount⟩ := Bytes.exists_unsigned? 2 p.size ⟨by omega, by omega⟩
  have hall : ∀ e ∈ p.entries.toList.filterMap id, ∃ bytes, e.encode? = some bytes := by
    intro e he
    have hmem : some e ∈ p.entries := by
      obtain ⟨e?, he?, heq⟩ := List.mem_filterMap.1 he
      exact Array.mem_toList_iff.1 (heq ▸ he?)
    exact (hp.inRange (by omega) e hmem).exists_encode? fun t ht => hshort t (ht ▸ hmem)
  obtain ⟨parts, hparts⟩ := exists_mapM_encode? hall
  have hbytes : p.encode? = some (count ++ parts.flatten) := by
    unfold encode?
    rw [hcount, hparts]
    rfl
  refine ⟨count ++ parts.flatten, by rw [encode, hbytes]; rfl, ?_⟩
  -- nothing changes on the way, since every entry is as it is read
  have hstored : p.entries.map (Option.map Entry.stored) = p.entries := by
    refine Array.ext (by simp) fun i hi _ => ?_
    rw [Array.getElem_map]
    have hmem := Array.getElem_mem (by simpa using hi : i < p.entries.size)
    cases he : p.entries[i] with
    | none => rfl
    | some e =>
      rw [he] at hmem
      rw [Option.map_some, (hp.isRead e hmem).stored_eq]
  have hread := reads_pool hp.wellFormed (fun e he => (hp.isRead e he).allowed) hbytes
  rwa [hstored] at hread

end ClassTree.Pool
