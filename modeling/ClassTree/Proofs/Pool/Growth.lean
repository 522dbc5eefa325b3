/-
# ClassTree.Proofs.Pool.Growth — what a pool finds, and how it grows

A pool finds an entry at the first index that holds one of the same key. Adding never moves an
entry, so a pool that has grown finds everything that it found before, where it found it. A pool
that grows and comes back to itself has not changed on the way.
-/
import ClassTree.Pool.Basic

namespace ClassTree.Pool

/-! ## First indices -/

/-- The first index of an entry with a key. -/
def firstIndex? (entries : List (Option Entry)) (key : Entry) : Option Nat :=
  entries.findIdx? fun e? => e?.any fun e => e.key = key

/-- The slots that entries fill: a long or a double leaves the one behind it empty. -/
def slots (entries : List Entry) : List (Option Entry) :=
  entries.flatMap fun e => if e.isWide then [some e, none] else [some e]

/-- The tables of a pool agree with its lists. -/
structure WellFormed (p : Pool) : Prop where
  index : ∀ key, p.index[key]? = firstIndex? p.entries.toList key
  bootstrapIndex : ∀ method, p.bootstrapIndex[method]? = p.bootstrap.toList.findIdx? (· = method)
  shape : ∃ entries, p.entries.toList = none :: slots entries

/-- An entry at the end is found if there is none of its key before. -/
theorem firstIndex?_append_some (entries : List (Option Entry)) (e key : Entry) :
    firstIndex? (entries ++ [some e]) key =
      (firstIndex? entries key).or (if e.key = key then some entries.length else none) := by
  unfold firstIndex?
  rw [List.findIdx?_append]
  by_cases h : e.key = key <;> simp [h]

theorem firstIndex?_append_none (entries : List (Option Entry)) (key : Entry) :
    firstIndex? (entries ++ [none]) key = firstIndex? entries key := by
  unfold firstIndex?
  rw [List.findIdx?_append]
  simp

/-- What is found at an index has the key that was looked for. -/
theorem getElem?_of_firstIndex? {entries : List (Option Entry)} {key : Entry} {i : Nat}
    (h : firstIndex? entries key = some i) : ∃ e, entries[i]? = some (some e) ∧ e.key = key := by
  obtain ⟨hi, hkey, -⟩ := List.findIdx?_eq_some_iff_getElem.1 h
  rw [Option.any_eq_true] at hkey
  obtain ⟨e, he, hkey⟩ := hkey
  exact ⟨e, by rw [List.getElem?_eq_getElem hi, he], by simpa using hkey⟩

theorem slots_append_singleton (entries : List Entry) (e : Entry) :
    slots (entries ++ [e]) = slots entries ++ if e.isWide then [some e, none] else [some e] := by
  simp [slots]

/-- Every slot that is filled is filled by one of the entries. -/
theorem mem_slots_iff {entries : List Entry} {e : Entry} :
    some e ∈ slots entries ↔ e ∈ entries := by
  unfold slots
  rw [List.mem_flatMap]
  constructor
  · rintro ⟨e', he', hmem⟩
    split at hmem <;> simp at hmem <;> exact hmem ▸ he'
  · intro he
    refine ⟨e, he, ?_⟩
    split <;> simp

/-! ## Adding -/

theorem insert_of_some {p : Pool} {e : Entry} {i : Nat} (h : p.index[e.key]? = some i) :
    p.insert e = (i, p) := by
  unfold insert
  rw [h]

theorem insertBootstrap_of_some {p : Pool} {m : Bootstrap} {i : Nat}
    (h : p.bootstrapIndex[m]? = some i) : p.insertBootstrap m = (i, p) := by
  unfold insertBootstrap
  rw [h]

theorem index_insert_self (p : Pool) (e : Entry) :
    (p.insert e).2.index[e.key]? = some (p.insert e).1 := by
  unfold insert
  split
  · assumption
  · simp

theorem bootstrapIndex_insertBootstrap_self (p : Pool) (m : Bootstrap) :
    (p.insertBootstrap m).2.bootstrapIndex[m]? = some (p.insertBootstrap m).1 := by
  unfold insertBootstrap
  split
  · assumption
  · simp

/-- Adding an entry keeps a pool well-formed: each key is found at its first index, and no slot is
left open but the second ones of longs and doubles. -/
theorem WellFormed.insert {p : Pool} (h : p.WellFormed) (e : Entry) : (p.insert e).2.WellFormed := by
  unfold Pool.insert
  split
  · exact h
  · next hnone =>
    rw [h.index] at hnone
    refine ⟨?_, h.bootstrapIndex, ?_⟩
    · intro key
      have hlist : firstIndex?
          (if e.isWide then (p.entries.push (some e)).push none
            else p.entries.push (some e)).toList key =
          firstIndex? (p.entries.toList ++ [some e]) key := by
        split
        · rw [Array.toList_push, firstIndex?_append_none, Array.toList_push]
        · rw [Array.toList_push]
      show (p.index.insert e.key p.entries.size)[key]? = firstIndex? _ key
      rw [hlist, firstIndex?_append_some, Std.HashMap.getElem?_insert, h.index key]
      by_cases heq : e.key = key
      · subst heq
        simp [hnone]
      · simp [heq]
    · obtain ⟨entries, hentries⟩ := h.shape
      refine ⟨entries ++ [e], ?_⟩
      rw [slots_append_singleton, ← List.cons_append, ← hentries]
      show (if e.isWide then (p.entries.push (some e)).push none
        else p.entries.push (some e)).toList = _
      split <;> simp

/-- Adding a bootstrap method keeps a pool well-formed. -/
theorem WellFormed.insertBootstrap {p : Pool} (h : p.WellFormed) (m : Bootstrap) :
    (p.insertBootstrap m).2.WellFormed := by
  unfold Pool.insertBootstrap
  split
  · exact h
  · next hnone =>
    rw [h.bootstrapIndex] at hnone
    refine ⟨h.index, ?_, h.shape⟩
    intro method
    show (p.bootstrapIndex.insert m p.bootstrap.size)[method]? = _
    rw [Std.HashMap.getElem?_insert, h.bootstrapIndex method, Array.toList_push,
      List.findIdx?_append]
    by_cases heq : m = method
    · subst heq
      simp [hnone]
    · simp [heq]

/-! ## Knowing more -/

/-- One pool finds everything that another one finds, at the same index. -/
structure Within (p q : Pool) : Prop where
  index : ∀ {key : Entry} {i : Nat}, p.index[key]? = some i → q.index[key]? = some i
  bootstrapIndex : ∀ {method : Bootstrap} {i : Nat},
    p.bootstrapIndex[method]? = some i → q.bootstrapIndex[method]? = some i

theorem Within.refl (p : Pool) : p.Within p := ⟨id, id⟩

theorem Within.trans {p q r : Pool} (h : p.Within q) (h' : q.Within r) : p.Within r :=
  ⟨fun hi => h'.index (h.index hi), fun hi => h'.bootstrapIndex (h.bootstrapIndex hi)⟩

theorem within_insert (p : Pool) (e : Entry) : p.Within (p.insert e).2 := by
  unfold insert
  split
  · exact .refl p
  · next hnone =>
    refine ⟨?_, id⟩
    intro key i hi
    show (p.index.insert e.key p.entries.size)[key]? = some i
    rw [Std.HashMap.getElem?_insert]
    split
    · next heq =>
      rw [← eq_of_beq heq, hnone] at hi
      cases hi
    · exact hi

theorem within_insertBootstrap (p : Pool) (m : Bootstrap) : p.Within (p.insertBootstrap m).2 := by
  unfold insertBootstrap
  split
  · exact .refl p
  · next hnone =>
    refine ⟨id, ?_⟩
    intro method i hi
    show (p.bootstrapIndex.insert m p.bootstrap.size)[method]? = some i
    rw [Std.HashMap.getElem?_insert]
    split
    · next heq =>
      rw [← eq_of_beq heq, hnone] at hi
      cases hi
    · exact hi

/-! ## Standing where it stood -/

/-- An entry of a pool to which one has been added is that one or was there before. -/
theorem mem_of_mem_insert {p : Pool} {e e' : Entry} (h : some e ∈ (p.insert e').2.entries) :
    some e ∈ p.entries ∨ e = e' := by
  unfold insert at h
  split at h
  · exact .inl h
  · simp only at h
    split at h <;> simpa using h

/-- Adding a bootstrap method leaves the entries as they are. -/
theorem entries_insertBootstrap (p : Pool) (m : Bootstrap) :
    (p.insertBootstrap m).2.entries = p.entries := by
  unfold insertBootstrap
  split <;> rfl

/-- One pool begins with all that another one holds, index by index. -/
structure Begins (p q : Pool) : Prop where
  entries : p.entries.toList <+: q.entries.toList
  bootstrap : p.bootstrap.toList <+: q.bootstrap.toList

theorem Begins.refl (p : Pool) : p.Begins p := ⟨List.prefix_refl _, List.prefix_refl _⟩

theorem Begins.trans {p q r : Pool} (h : p.Begins q) (h' : q.Begins r) : p.Begins r :=
  ⟨h.entries.trans h'.entries, h.bootstrap.trans h'.bootstrap⟩

theorem begins_insert (p : Pool) (e : Entry) : p.Begins (p.insert e).2 := by
  unfold insert
  split
  · exact .refl p
  · refine ⟨?_, List.prefix_refl _⟩
    show p.entries.toList <+: (if e.isWide then (p.entries.push (some e)).push none
      else p.entries.push (some e)).toList
    split <;> simp

theorem begins_insertBootstrap (p : Pool) (m : Bootstrap) :
    p.Begins (p.insertBootstrap m).2 := by
  unfold insertBootstrap
  split
  · exact .refl p
  · exact ⟨List.prefix_refl _, by simp⟩

/-! ## Growing -/

/-- What may be added to a pool: texts of a sort and, perhaps, bootstrap methods. -/
structure Scope where
  text : Text → Prop
  sites : Prop

/-- Everything may be added. -/
def Scope.all : Scope := ⟨fun _ => True, True⟩

/-- An entry that may be added. Where a text or a long is asked for and something else is given, the
entry made of it is irregular. -/
def Entry.Allowed (S : Scope) : Entry → Prop
  | .utf8 t => S.text t
  | .irregular tag _ => tag = 1 ∨ tag = 5
  | _ => True

/-- A pool comes from another one by adding to it. -/
inductive Grows (S : Scope) (p : Pool) : Pool → Prop
  | refl : Grows S p p
  | entry {q : Pool} (h : Grows S p q) {e : Entry} (he : e.Allowed S) : Grows S p (q.insert e).2
  | bootstrap {q : Pool} (h : Grows S p q) (hs : S.sites) (m : Bootstrap) :
      Grows S p (q.insertBootstrap m).2

/-- How much a pool holds. -/
def extent (p : Pool) : Nat := p.entries.size + p.bootstrap.size

namespace Grows

variable {S : Scope} {p q r : Pool}

theorem trans (h : Grows S p q) (h' : Grows S q r) : Grows S p r := by
  induction h' with
  | refl => exact h
  | entry _ he ih => exact ih.entry he
  | bootstrap _ hs m ih => exact ih.bootstrap hs m

theorem within (h : Grows S p q) : p.Within q := by
  induction h with
  | refl => exact .refl p
  | entry _ _ ih => exact ih.trans (within_insert _ _)
  | bootstrap _ _ m ih => exact ih.trans (within_insertBootstrap _ m)

theorem wellFormed (h : Grows S p q) (hp : p.WellFormed) : q.WellFormed := by
  induction h with
  | refl => exact hp
  | entry _ _ ih => exact ih.insert _
  | bootstrap _ _ m ih => exact ih.insertBootstrap m

/-- Every entry of a pool that has grown was there before or may be added. -/
theorem mem_entries (h : Grows S p q) {e : Entry} (he : some e ∈ q.entries) :
    some e ∈ p.entries ∨ e.Allowed S := by
  induction h with
  | refl => exact .inl he
  | entry _ he' ih =>
    rcases mem_of_mem_insert he with he | rfl
    · exact ih he
    · exact .inr he'
  | bootstrap _ _ m ih => exact ih (entries_insertBootstrap _ m ▸ he)

/-- Growing moves nothing: what was there is still there, at the same index. -/
theorem begins (h : Grows S p q) : p.Begins q := by
  induction h with
  | refl => exact .refl p
  | entry _ _ ih => exact ih.trans (begins_insert _ _)
  | bootstrap _ _ m ih => exact ih.trans (begins_insertBootstrap _ m)

/-- Growing changes nothing or makes a pool larger. -/
theorem eq_or_extent_lt (h : Grows S p q) : p = q ∨ p.extent < q.extent := by
  induction h with
  | refl => exact .inl rfl
  | @entry q _ e _ ih =>
    unfold Pool.insert
    split
    · exact ih
    · have hlt : q.extent < Pool.extent { q with
          entries := if e.isWide then (q.entries.push (some e)).push none
            else q.entries.push (some e)
          index := q.index.insert e.key q.entries.size } := by
        unfold extent
        simp only
        split <;> simp only [Array.size_push] <;> omega
      rcases ih with rfl | hlt'
      · exact .inr hlt
      · exact .inr (Nat.lt_trans hlt' hlt)
  | @bootstrap q _ _ m ih =>
    unfold Pool.insertBootstrap
    split
    · exact ih
    · have hlt : q.extent < Pool.extent { q with
          bootstrap := q.bootstrap.push m
          bootstrapIndex := q.bootstrapIndex.insert m q.bootstrap.size } := by
        unfold extent
        simp
      rcases ih with rfl | hlt'
      · exact .inr hlt
      · exact .inr (Nat.lt_trans hlt' hlt)

/-- A pool that grows and comes back has not changed. -/
theorem antisymm {S' : Scope} (h : Grows S p q) (h' : Grows S' q p) : p = q := by
  rcases h.eq_or_extent_lt with rfl | hlt
  · rfl
  · rcases h'.eq_or_extent_lt with rfl | hlt'
    · rfl
    · omega

end Grows

end ClassTree.Pool
