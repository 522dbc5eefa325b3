/-
# ClassTree.Proofs.ReadBack.Instructions — what the instructions of a body are read back as

How a body is laid out depends on the pool in one place only: a constant is loaded by a short form
if its index fits in one byte. In a small pool every index does. There the layout of a body, and
every instruction that is read back of it, is a function of the body alone.
-/
import ClassTree.Proofs.Acceptance.Code
import ClassTree.Proofs.Acceptance.Element
import ClassTree.Proofs.Decoding.Parts

namespace ClassTree

open Decoding Encoding Encoder

variable {g : Text → Text} {t : Table} {P P' : Pool} {l : Layout} {place : Text} {body : List Item}
  {bytes : Bytes}

/-! ## One instruction -/

namespace Instruction

variable {τ : Type}

/-- What an instruction is read back as. -/
def readAs (g : Text → Text) : Instruction τ → Instruction τ
  | .constant op v => .constant op (v.readAs g (Literal.loadedKind op v))
  | .type op name => .type op (name.map g)
  | .field op owner name descriptor => .field op (owner.map g) (g name) (g descriptor)
  | .method op owner name descriptor interface =>
    .method op (owner.map g) (g name) (g descriptor) interface
  | .callSite name descriptor bootstrap arguments =>
    .callSite (g name) (g descriptor) (bootstrap.stored g)
      (arguments.map fun a => (a.1, a.2.readAs g a.1))
  | .multiArray descriptor dimensions => .multiArray (descriptor.map g) dimensions
  | i => i

/-- An instruction that is stored is read back in one way. -/
theorem Stores.eq_readAs {i i' : Instruction τ} (h : i.Stores g i') : i' = i.readAs g := by
  cases h with
  | free h => cases i <;> first | rfl | cases h
  | constant op h => rw [h.eq_readAs, readAs]
  | callSite name descriptor h =>
    have harguments : ∀ {as as' : List (Text × Constant)},
        List.Forall₂ (fun a a' => a.1 = a'.1 ∧ a.2.Stores g a.1 a'.2) as as' →
          as' = as.map fun a => (a.1, a.2.readAs g a.1) := by
      intro as as' has
      induction has with
      | nil => rfl
      | @cons a a' _ _ ha _ ih => rw [List.map_cons, ← ih, ← ha.2.eq_readAs, ha.1]
    rw [harguments h, readAs]
  | _ => rfl

/-- The instruction with the offsets of its labels for targets. -/
def placed (l : Layout) (i : Instruction Label) : Instruction Int :=
  Id.run (i.mapTargets fun label => (l.labelOffset label : Int))

theorem mapM_labelOffset {ls : List Label} {targets : List Int} (h : List.Forall₂ l.Leads ls targets) :
    targets = Id.run (ls.mapM fun label => (l.labelOffset label : Int)) := by
  rw [List.idRun_mapM]
  induction h with
  | nil => rfl
  | cons h _ ih =>
    obtain ⟨offset, hoffset, rfl⟩ := h
    rw [List.map_cons, ← ih, Layout.labelOffset_eq hoffset]
    rfl

/-- An instruction has been placed if its labels lead to its targets. -/
theorem Matches.eq_placed {i : Instruction Label} {j : Instruction Int} (h : i.Matches l.Leads j) :
    j = i.placed l := by
  cases h with
  | jump op h =>
    obtain ⟨offset, hoffset, rfl⟩ := h
    rw [← Layout.labelOffset_eq hoffset]
    rfl
  | tableSwitch low high h hs =>
    obtain ⟨offset, hoffset, rfl⟩ := h
    rw [← Layout.labelOffset_eq hoffset, mapM_labelOffset hs]
    rfl
  | lookupSwitch keys h hs =>
    obtain ⟨offset, hoffset, rfl⟩ := h
    rw [← Layout.labelOffset_eq hoffset, mapM_labelOffset hs]
    rfl
  | _ => rfl

end Instruction

/-! ## Small pools -/

/-- Every index of the table fits in one byte. -/
def Decoding.Table.IsSmall (t : Table) : Prop := t.entries.size ≤ maxByte + 1

/-- What is looked up is in the table. -/
theorem Decoding.Table.lt_of_reads_constant {i : Nat} {c : Text × Constant}
    (h : Reads (t.constant i) [] c) : i < t.entries.size := by
  by_contra hlarge
  have hnone : t.entries[i]? = none := Array.getElem?_eq_none (Nat.le_of_not_lt hlarge)
  have hread := h 0 []
  unfold Table.constant Table.entry at hread
  rw [hnone] at hread
  cases hread

namespace Encoding

theorem le_of_fixed_addLoaded (ht : Backs g t P) (hsmall : t.IsSmall) {op : Opcode} {v : Constant}
    {i : Nat} (h : Fixed P (addLoaded op v) i) : i ≤ maxByte := by
  have hadd := fixed_addConstant_of_addLoaded h
  obtain ⟨v', -, hread⟩ := ht.exists_reads_constant (ht.isRegular_of_fixed hadd) hadd
  exact Nat.lt_succ_iff.1 (Nat.lt_of_lt_of_le (Table.lt_of_reads_constant hread) hsmall)

/-- Every index fits in one byte that the pool has for a constant that is loaded by a short form. -/
def LoadsShort {τ : Type} (P : Pool) : Instruction τ → Prop
  | .constant op v => op = .ldc → ∀ k, Fixed P (addLoaded op v) k → k ≤ maxByte
  | _ => True

theorem loadsShort_of_isSmall {τ : Type} (ht : Backs g t P) (hsmall : t.IsSmall) (i : Instruction τ) :
    LoadsShort P i := by
  cases i with
  | constant op v => exact fun _ k hk => le_of_fixed_addLoaded ht hsmall hk
  | _ => trivial

theorem LoadsShort.of_matches {τ σ : Type} {R : τ → σ → Prop} {i : Instruction τ} {j : Instruction σ}
    (h : LoadsShort P i) (hmatches : i.Matches R j) : LoadsShort P j := by
  cases hmatches <;> exact h

/-- The room of an instruction in a small pool. -/
theorem fixed_roomOf_unique {t' : Table} (ht : Backs g t P) (hsmall : t.IsSmall) (ht' : Backs g t' P')
    (hsmall' : t'.IsSmall) {i : Instruction Label} {room room' : Room} (h : Fixed P (roomOf i) room)
    (h' : Fixed P' (roomOf i) room') : room = room' := by
  cases i with
  | constant op v =>
    simp only [roomOf] at h h'
    split at h
    · next hop =>
      rw [if_pos hop] at h'
      simp only [fixed_bind_iff, fixed_pure_iff] at h h'
      obtain ⟨k, hk, rfl⟩ := h
      obtain ⟨k', hk', rfl⟩ := h'
      rw [if_pos (le_of_fixed_addLoaded ht hsmall hk), if_pos (le_of_fixed_addLoaded ht' hsmall' hk')]
    · next hop =>
      rw [if_neg hop] at h'
      rw [fixed_pure_iff.1 h, fixed_pure_iff.1 h']
  | _ => exact (fixed_pure_iff.1 h).trans (fixed_pure_iff.1 h').symm

/-- Two small pools lay a body out in the same way. What a pool decides about a layout is how many
bytes the index of a loaded constant takes, and in a small pool that is always one. -/
theorem fixed_of_unique {t' : Table} (ht : Backs g t P) (hsmall : t.IsSmall) (ht' : Backs g t' P')
    (hsmall' : t'.IsSmall) {l' : Layout} (h : Fixed P (Layout.of body) l)
    (h' : Fixed P' (Layout.of body) l') : l = l' := by
  have hrooms : ∀ {rooms rooms' : List Room}, Fixed P (roomsOf body) rooms →
      Fixed P' (roomsOf body) rooms' → rooms = rooms' := by
    intro rooms rooms' hrooms hrooms'
    rw [Layout.fixed_roomsOf_iff] at hrooms hrooms'
    clear h h'
    induction hrooms generalizing rooms' with
    | nil => exact (List.forall₂_nil_left_iff.1 hrooms').symm
    | @cons item room _ _ hroom _ ih =>
      obtain ⟨room', rooms', hroom', hrest', rfl⟩ := List.forall₂_cons_left_iff.1 hrooms'
      have heq : room = room' := by
        cases item with
        | instruction i => exact fixed_roomOf_unique ht hsmall ht' hsmall' hroom hroom'
        | _ => exact (fixed_pure_iff.1 hroom).trans (fixed_pure_iff.1 hroom').symm
      rw [heq, ih hrest']
  unfold Layout.of at h h'
  simp only [fixed_bind_iff, fixed_pure_iff] at h h'
  obtain ⟨rooms, hfirst, rfl⟩ := h
  obtain ⟨rooms', hsecond, rfl⟩ := h'
  rw [hrooms hfirst hsecond]

/-! ## The code at a position -/

/-- The instructions at a position of a body if every constant has a short index. -/
def shortRow (l : Layout) (position : Nat) : Instruction Int → List (Instruction Int)
  | .jump op target => rewritten (.seeded [] []) l position (.jump op target)
  | j => [j]

/-- The code at a position of a body, read back. Of two instructions the first one is a short jump.
-/
def codeAt (g : Text → Text) (l : Layout) (position : Nat) (j : Instruction Int) :
    List (Nat × Instruction Int) :=
  (shortRow l position j).zipIdx.map fun p => (l.offset position + 3 * p.2, p.1.readAs g)

section

variable {position : Nat} {j : Instruction Int}

theorem rewritten_eq_shortRow (hshort : LoadsShort P j)
    (h : Fixed P (operation (l.offset position) (l.isFar position) j) bytes) :
    rewritten P l position j = shortRow l position j := by
  cases j with
  | constant op v =>
    have hload : Fixed P (loadConstant op v) bytes := h
    obtain ⟨k, hk, -⟩ := fixed_bind_iff.1 hload
    rw [rewritten, loadedIndex_eq hk, if_neg fun hlong => Nat.not_lt.2 (hshort hlong.1 k hk) hlong.2]
    rfl
  | _ => rfl

/-- There is one instruction at a position, or there is a far conditional jump. -/
theorem shortRow_cases (l : Layout) (position : Nat) (j : Instruction Int) :
    (∃ k, shortRow l position j = [k]) ∨ ∃ op opposite target, j = .jump op target ∧
      l.isFar position = true ∧ op.isFar = false ∧ op.opposite? = some opposite := by
  cases j with
  | jump op target =>
    by_cases hfar : l.isFar position = true ∧ op.isFar = false
    · cases hopposite : op.opposite? with
      | some opposite => exact .inr ⟨op, opposite, target, rfl, hfar.1, hfar.2, hopposite⟩
      | none => exact .inl ⟨_, by rw [shortRow, rewritten, if_pos hfar, hopposite]⟩
    · exact .inl ⟨_, by rw [shortRow, rewritten, if_neg hfar]⟩
  | _ => exact .inl ⟨_, rfl⟩

/-- The code at a position is read back. -/
theorem readsCode_codeAt (ht : Backs g t P) (hsites : HasSites t P) (hshort : LoadsShort P j)
    (hfamily : j.InFamily) (htargets : j.HasTargets)
    (h : Fixed P (operation (l.offset position) (l.isFar position) j) bytes)
    (hnext : l.offset (position + 1) = l.offset position + bytes.length) :
    ReadsCode t (l.offset position) bytes (codeAt g l position j) := by
  rcases shortRow_cases l position j with ⟨k, hrow⟩ | ⟨op, opposite, target, rfl, hfar, hop, hopposite⟩
  · obtain ⟨row, hstores, hread⟩ := exists_stores_readsRow ht.toCarries hsites hfamily htargets
      (ht.isRegular_of_fixed_operation h) h hnext
    rw [rewritten_eq_shortRow hshort h, hrow] at hstores
    obtain ⟨k', row', hk, hrest, rfl⟩ := List.forall₂_cons_left_iff.1 hstores
    obtain rfl := List.forall₂_nil_left_iff.1 hrest
    cases hread with
    | cons hread hnil =>
      cases hnil
      unfold codeAt
      rw [hrow]
      exact .cons (hk.eq_readAs ▸ hread) (.nil _)
  · -- two jumps stand for one
    have hjump : Fixed P (jump op true (target - l.offset position)) bytes := by
      have hjump := h
      rwa [operation, hfar] at hjump
    obtain ⟨first, second, rfl, hfirst, hsecond, hread, hread'⟩ := reads_farConditional hopposite hjump
    have hlength : l.offset (position + 1) = l.offset position + 8 := by
      rw [hnext, List.length_append, hfirst, hsecond]
    have hcode : codeAt g l position (.jump op target) =
        [(l.offset position, .jump opposite (l.offset (position + 1))),
          (l.offset position + 3, .jump .goto_w target)] := by
      unfold codeAt
      rw [shortRow, rewritten, if_pos ⟨hfar, hop⟩, hopposite]
      rfl
    rw [hcode, hlength]
    have hlast := ReadsCode.cons hread' (.nil _)
    rw [← hfirst, List.append_nil] at hlast
    exact .cons hread (hfirst ▸ hlast)

end

/-! ## The code of a body -/

/-- The code of an item at a position, read back. -/
def codeOfItem (g : Text → Text) (l : Layout) (p : Item × Nat) : List (Nat × Instruction Int) :=
  match p.1 with
  | .instruction i => codeAt g l p.2 (i.placed l)
  | _ => []

/-- The code of a body, read back. -/
def codeOf (g : Text → Text) (l : Layout) (body : List Item) : List (Nat × Instruction Int) :=
  body.zipIdx.flatMap (codeOfItem g l)

/-- The code of an item is read back. -/
theorem readsCode_codeOfItem (ht : Backs g t P) (hsites : HasSites t P) {item : Item} {position : Nat}
    (hshort : ∀ i, item = .instruction i → LoadsShort P i)
    (hfamily : ∀ i, item = .instruction i → i.InFamily)
    (htargets : ∀ i, item = .instruction i → i.HasTargets)
    (h : Fixed P (Encoding.item l place position item) bytes)
    (hnext : l.offset (position + 1) = l.offset position + bytes.length) :
    ReadsCode t (l.offset position) bytes (codeOfItem g l (item, position)) := by
  cases item with
  | instruction i =>
    obtain ⟨j, hmatches, hbytes⟩ := exists_of_fixed_item h
    obtain rfl := hmatches.eq_placed
    exact readsCode_codeAt ht hsites ((hshort i rfl).of_matches hmatches)
      (hmatches.inFamily (hfamily i rfl)) (hmatches.hasTargets (htargets i rfl)) hbytes hnext
  | _ =>
    rw [fixed_pure_iff.1 h]
    exact .nil _

/-- The code of a body is read back: behind each offset of the layout stands the instruction of the
body, with the offsets of its targets and its names as the pool stores them. -/
theorem readsCode_codeOf (ht : Backs g t P) (hsites : HasSites t P)
    (hl : Fixed P (Layout.of body) l) (hshort : ∀ i, .instruction i ∈ body → LoadsShort P i)
    (hfamily : ∀ i, .instruction i ∈ body → i.InFamily)
    (htargets : ∀ i, .instruction i ∈ body → i.HasTargets)
    (h : Fixed P (operations l place body) bytes) : ReadsCode t 0 bytes (codeOf g l body) := by
  obtain ⟨parts, hparts, rfl⟩ := fixed_all_iff.1 h
  have hlength : parts.length = body.length := by
    rw [← hparts.length_eq, List.length_zipIdx]
  have hoffset {index : Nat} (hindex : index ≤ body.length) : l.offset index = _ :=
    offset_eq_length hl (fun i hi => hasKeys_of_hasTargets (htargets i hi)) hparts hindex
  -- the first `n` items are read, for all `n`
  suffices hfirst : ∀ n ≤ body.length,
      ReadsCode t 0 (parts.take n).flatten ((body.zipIdx.take n).flatMap (codeOfItem g l)) by
    have hall := hfirst body.length (Nat.le_refl _)
    have hitems : body.zipIdx.take body.length = body.zipIdx :=
      List.take_of_length_le (Nat.le_of_eq List.length_zipIdx)
    rwa [← hlength, List.take_length, hlength, hitems] at hall
  intro n
  induction n with
  | zero => exact fun _ => .nil 0
  | succ n ih =>
    intro hn
    have hpart := hparts.get (by rw [List.length_zipIdx]; omega) (hlength ▸ hn)
    simp only [List.get_eq_getElem, List.getElem_zipIdx, Nat.zero_add] at hpart
    have hlt : n < parts.length := hlength ▸ hn
    have htake := flatten_take_succ (List.getElem?_eq_getElem hlt)
    have hnext : l.offset (n + 1) = l.offset n + parts[n].length := by
      rw [hoffset hn, hoffset (by omega), htake, List.length_append]
    have hitem : body.zipIdx[n]? = some (body[n], n) := by
      rw [List.getElem?_zipIdx, List.getElem?_eq_getElem hn, Nat.zero_add]
      rfl
    have hmem : body[n] ∈ body := List.getElem_mem hn
    rw [htake, List.take_add_one, hitem, Option.toList_some, List.flatMap_append,
      List.flatMap_singleton]
    refine (ih (by omega)).append ?_
    rw [Nat.zero_add, ← hoffset (by omega)]
    exact readsCode_codeOfItem ht hsites (fun i hi => hshort i (hi ▸ hmem))
      (fun i hi => hfamily i (hi ▸ hmem)) (fun i hi => htargets i (hi ▸ hmem)) hpart hnext

/-- What is read of a code, if it is accepted, is the code. -/
theorem eq_of_readOperations {code code' : List (Nat × Instruction Int)} (h : ReadsCode t 0 bytes code)
    (hread : Outline.whole (readOperations t bytes.length) bytes = .ok code') : code' = code := by
  obtain ⟨c, hread, -⟩ := whole_eq_ok_iff.1 hread
  obtain ⟨start, c₁, hstart, hread⟩ := Decoder.bind_eq_ok_iff.1 hread
  cases hstart
  obtain ⟨found, c₂, hfound, hread⟩ := Decoder.bind_eq_ok_iff.1 hread
  have hcode := h.readOperationsOnto_eq (Nat.zero_add _) (Nat.le_refl _) 0 [] []
  rw [List.append_nil] at hcode
  cases hcode.symm.trans hfound
  obtain ⟨_, c₃, -, hread⟩ := Decoder.bind_eq_ok_iff.1 hread
  split at hread
  · obtain ⟨_, c₄, -, hread⟩ := Decoder.bind_eq_ok_iff.1 hread
    cases hread
    rfl
  · obtain ⟨_, c₄, hrefuse, -⟩ := Decoder.bind_eq_ok_iff.1 hread
    cases hrefuse

end Encoding

end ClassTree
