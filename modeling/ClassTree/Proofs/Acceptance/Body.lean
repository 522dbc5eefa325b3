/-
# ClassTree.Proofs.Acceptance.Body — the instructions of a written body are read

The instructions of a body are read one after another from the bytes that were written for them,
each at the offset that its item has in the layout. A jump is read with the offset of its label.
Only the two jumps that stand for a far conditional one bring in an offset of their own: that of the
next item.
-/
import ClassTree.Proofs.Class.Legible
import ClassTree.Proofs.Decoding.Fault
import ClassTree.Proofs.Emission

namespace ClassTree

open Decoding Encoding Encoder

/-! ## Codes -/

namespace Decoding

variable {t : Table} {offset : Nat} {bytes bytes' : Bytes}

/-- A check of jumps passes only if they stay in the code. -/
theorem finds_checkTargets (codeStart length : Nat) (code : List (Nat × Instruction Int)) :
    Finds (checkTargets codeStart length code) fun _ =>
      ∀ p ∈ code, ∀ target ∈ p.2.targets, 0 ≤ target ∧ target < length :=
  .forM fun _ _ => .forM fun _ _ => .check _ _

/-- The instructions of some code are read one after another, each at its offset. -/
inductive ReadsCode (t : Table) : Nat → Bytes → List (Nat × Instruction Int) → Prop
  | nil (offset : Nat) : ReadsCode t offset [] []
  | cons {offset : Nat} {first rest : Bytes} {i : Instruction Int}
      {code : List (Nat × Instruction Int)} (h : Reads (readInstruction t offset) first i)
      (hrest : ReadsCode t (offset + first.length) rest code) :
      ReadsCode t offset (first ++ rest) ((offset, i) :: code)

theorem pos_of_reads_readInstruction {i : Instruction Int}
    (h : Reads (readInstruction t offset) bytes i) : 0 < bytes.length := by
  cases bytes with
  | nil => cases h 0 []
  | cons b bytes => exact Nat.succ_pos _

namespace ReadsCode

variable {code code' : List (Nat × Instruction Int)}

theorem append (h : ReadsCode t offset bytes code)
    (h' : ReadsCode t (offset + bytes.length) bytes' code') :
    ReadsCode t offset (bytes ++ bytes') (code ++ code') := by
  induction h with
  | nil offset => exact h'
  | @cons offset first rest i code h _ ih =>
    rw [List.append_assoc]
    refine .cons h (ih ?_)
    rwa [Nat.add_assoc, ← List.length_append]

theorem of_row {row : List (Instruction Int)} (h : ReadsRow t offset bytes row) :
    ∃ code, ReadsCode t offset bytes code ∧ code.map Prod.snd = row := by
  induction h with
  | nil offset => exact ⟨[], .nil offset, rfl⟩
  | @cons offset first rest i row h _ ih =>
    obtain ⟨code, hcode, hrow⟩ := ih
    exact ⟨_, .cons h hcode, by rw [List.map_cons, hrow]⟩

/-- The offsets of the instructions are those of bytes of the code. -/
theorem lt_of_mem (h : ReadsCode t offset bytes code) {p : Nat × Instruction Int} (hp : p ∈ code) :
    p.1 < offset + bytes.length := by
  induction h with
  | nil offset => cases hp
  | @cons offset first rest i code h _ ih =>
    have hpos := pos_of_reads_readInstruction h
    rw [List.length_append]
    rcases List.mem_cons.1 hp with rfl | hp
    · show offset < _
      omega
    · have := ih hp
      omega

theorem exists_mem (h : ReadsCode t offset bytes code) (hcode : code ≠ []) :
    ∃ i, (offset, i) ∈ code := by
  cases h with
  | nil => exact absurd rfl hcode
  | cons h hrest => exact ⟨_, List.mem_cons_self ..⟩

/-- Instructions whose bytes stand one after another are read until the bytes end, each at the
offset where the one before it stops. The fuel is enough since each instruction takes at least a
byte. -/
theorem readOperationsOnto_eq (h : ReadsCode t offset bytes code) {length : Nat}
    (hlength : offset + bytes.length = length) {fuel : Nat} (hfuel : bytes.length ≤ fuel)
    (codeStart : Nat) (rest : Bytes) (acc : List (Nat × Instruction Int)) :
    readOperationsOnto t codeStart length fuel acc ⟨codeStart + offset, bytes ++ rest⟩ =
      .ok (acc.reverse ++ code, ⟨codeStart + length, rest⟩) := by
  induction h generalizing fuel acc with
  | nil offset =>
    obtain rfl : offset = length := hlength
    rw [List.append_nil]
    cases fuel with
    | zero => rfl
    | succ fuel =>
      show (if codeStart + offset - codeStart < offset then _ else _ : Decoder _) _ = _
      rw [if_neg (by omega)]
      rfl
  | @cons offset first tail i code h _ ih =>
    have hpos := pos_of_reads_readInstruction h
    rw [List.length_append] at hlength hfuel
    obtain ⟨fuel, rfl⟩ : ∃ n, fuel = n + 1 := ⟨fuel - 1, by omega⟩
    show (if codeStart + offset - codeStart < length then _ else _ : Decoder _) _ = _
    rw [if_pos (by omega), Nat.add_sub_cancel_left, List.append_assoc]
    refine Decoder.bind_eq_ok_iff.2 ⟨i, _, h _ _, ?_⟩
    rw [Nat.add_assoc]
    have hfuel' : tail.length ≤ fuel := by omega
    have hrest := ih (by omega) hfuel' ((offset, i) :: acc)
    rw [List.reverse_cons, List.append_assoc] at hrest
    exact hrest

/-- The code of a method is read if its jumps stay in it. -/
theorem reads_readOperations (h : ReadsCode t 0 bytes code)
    (htargets : ∀ p ∈ code, ∀ target ∈ p.2.targets, 0 ≤ target ∧ target < bytes.length) :
    Reads (readOperations t bytes.length) bytes code := by
  intro position rest
  have hcode := h.readOperationsOnto_eq (Nat.zero_add _) (Nat.le_refl _) position rest []
  refine Decoder.bind_eq_ok_iff.2 ⟨position, _, rfl, ?_⟩
  refine Decoder.bind_eq_ok_iff.2 ⟨code, _, hcode, ?_⟩
  show (if position + bytes.length = position + bytes.length then _ else _ : Decoder _) _ = _
  rw [if_pos rfl]
  have hcheck : Parses True (checkTargets position bytes.length code) [] fun _ => True :=
    Parses.forM_nil fun p hp => Parses.forM_nil fun target htarget =>
      .check (htargets p hp target htarget) _ _
  rcases hcheck (position + bytes.length) rest with ⟨u, -, heq⟩ | ⟨hnot, -⟩
  · exact Decoder.bind_eq_ok_iff.2 ⟨u, _, heq, rfl⟩
  · exact absurd trivial hnot

/-- The code of a method is refused if one of its jumps leaves it. -/
theorem exists_readOperations_eq_error (h : ReadsCode t 0 bytes code) {p : Nat × Instruction Int}
    (hp : p ∈ code) {target : Int} (htarget : target ∈ p.2.targets)
    (hout : ¬ (0 ≤ target ∧ target < bytes.length)) (position : Nat) (rest : Bytes) :
    ∃ e, readOperations t bytes.length ⟨position, bytes ++ rest⟩ = .error e := by
  have hcode := h.readOperationsOnto_eq (Nat.zero_add _) (Nat.le_refl _) position rest []
  rcases finds_checkTargets position bytes.length code
    ⟨position + bytes.length, rest⟩ with ⟨_, _, -, -, hall⟩ | ⟨cause, offset, herror⟩
  · exact absurd (hall p hp target htarget) hout
  · refine ⟨.malformed cause offset, Decoder.bind_eq_error_iff.2 (.inr ⟨position, _, rfl, ?_⟩)⟩
    refine Decoder.bind_eq_error_iff.2 (.inr ⟨code, _, hcode, ?_⟩)
    show (if position + bytes.length = position + bytes.length then _ else _ : Decoder _) _ = _
    rw [if_pos rfl]
    exact Decoder.bind_eq_error_iff.2 (.inl herror)

end ReadsCode

end Decoding

/-! ## Bodies -/

namespace Encoding

variable {g : Text → Text} {t : Table} {P : Pool} {l : Layout} {place : Text} {body : List Item}
  {bytes : Bytes}

/-- Where a jump that has been read leads: to a label of an instruction, or behind a far conditional
jump. -/
def IsTarget (body : List Item) (l : Layout) (target : Int) : Prop :=
  (∃ i label, Item.instruction i ∈ body ∧ label ∈ i.targets ∧ l.Leads label target) ∨
    ∃ position i, body[position]? = some (.instruction i) ∧ i.opcode.isConditional = true ∧
      l.isFar position = true ∧ target = l.offset (position + 1)

/-- The code at the position of an instruction has the targets of the instruction, unless the
instruction is a far conditional jump. -/
theorem of_mem_targets_rewritten {position : Nat} {j k : Instruction Int} {target : Int}
    (hk : k ∈ rewritten P l position j) (htarget : target ∈ k.targets) :
    target ∈ j.targets ∨ (j.opcode.isConditional = true ∧ l.isFar position = true ∧
      target = l.offset (position + 1)) := by
  cases j with
  | constant op v =>
    obtain rfl := List.mem_singleton.1 hk
    exact .inl htarget
  | jump op place =>
    rw [rewritten] at hk
    split at hk
    · next hfar =>
      cases hopposite : op.opposite? with
      | none =>
        rw [hopposite] at hk
        obtain rfl := List.mem_singleton.1 hk
        exact .inl htarget
      | some opposite =>
        rw [hopposite] at hk
        rcases List.mem_pair.1 hk with rfl | rfl
        · refine .inr ⟨?_, hfar.1, List.mem_singleton.1 htarget⟩
          show op.opposite?.isSome = true
          rw [hopposite]
          rfl
        · exact .inl htarget
    · obtain rfl := List.mem_singleton.1 hk
      exact .inl htarget
  | _ =>
    obtain rfl := List.mem_singleton.1 hk
    exact .inl htarget

theorem rewritten_ne_nil (P : Pool) (l : Layout) (position : Nat) (j : Instruction Int) :
    rewritten P l position j ≠ [] := by
  cases j with
  | jump op target =>
    rw [rewritten]
    split
    · split <;> simp
    · simp
  | _ => simp [rewritten]

/-- An instruction of a body is read at its offset, with targets of the body. -/
theorem exists_readsCode_of_item (ht : Backs g t P) (hsites : HasSites t P) {position : Nat}
    {i : Instruction Label} (hi : body[position]? = some (.instruction i)) (hfamily : i.InFamily)
    (htargets : i.HasTargets) (h : Fixed P (item l place position (.instruction i)) bytes)
    (hnext : l.offset (position + 1) = l.offset position + bytes.length) :
    ∃ code, ReadsCode t (l.offset position) bytes code ∧ (∃ j, (l.offset position, j) ∈ code) ∧
      ∀ p ∈ code, ∀ target ∈ p.2.targets, IsTarget body l target := by
  obtain ⟨j, hmatches, hbytes⟩ := exists_of_fixed_item h
  obtain ⟨row, hstores, hrow⟩ := exists_stores_readsRow ht.toCarries hsites
    (hmatches.inFamily hfamily) (hmatches.hasTargets htargets)
    (ht.isRegular_of_fixed_operation hbytes) hbytes hnext
  obtain ⟨code, hcode, rfl⟩ := ReadsCode.of_row hrow
  refine ⟨code, hcode, hcode.exists_mem ?_, fun p hp target htarget => ?_⟩
  · rintro rfl
    exact rewritten_ne_nil P l position j (List.forall₂_nil_right_iff.1 hstores)
  obtain ⟨k, hk, hpk⟩ := Result.exists_of_mem_right hstores (List.mem_map_of_mem hp)
  rw [hpk.targets_eq] at htarget
  rcases of_mem_targets_rewritten hk htarget with htarget | ⟨hconditional, hfar, rfl⟩
  · obtain ⟨label, hlabel, hleads⟩ := Result.exists_of_mem_right hmatches.targets htarget
    exact .inl ⟨i, label, List.mem_of_getElem? hi, hlabel, hleads⟩
  · rw [hmatches.opcode_eq] at hconditional
    exact .inr ⟨position, i, hi, hconditional, hfar, rfl⟩

/-- What is read of a body: its code, which has an instruction at the offset of each instruction of
the body, and jumps to targets of the body only. -/
structure IsRead (t : Table) (body : List Item) (l : Layout) (bytes : Bytes)
    (code : List (Nat × Instruction Int)) : Prop where
  reads : ReadsCode t 0 bytes code
  targets : ∀ p ∈ code, ∀ target ∈ p.2.targets, IsTarget body l target
  instructions : ∀ position i, body[position]? = some (.instruction i) →
    ∃ j, (l.offset position, j) ∈ code

/-- The instructions of a body are read: for what has been written of a body in its layout there are
instructions with their offsets that the reader gets, one for each of the body, with targets at the
offsets that the layout has for their labels. -/
theorem exists_isRead (ht : Backs g t P) (hsites : HasSites t P) (hl : Fixed P (Layout.of body) l)
    (hfamily : ∀ i, .instruction i ∈ body → i.InFamily)
    (htargets : ∀ i, .instruction i ∈ body → i.HasTargets)
    (h : Fixed P (operations l place body) bytes) : ∃ code, IsRead t body l bytes code := by
  obtain ⟨parts, hparts, rfl⟩ := fixed_all_iff.1 h
  have hlength : parts.length = body.length := by
    rw [← hparts.length_eq, List.length_zipIdx]
  have hoffset {index : Nat} (hindex : index ≤ body.length) : l.offset index = _ :=
    offset_eq_length hl (fun i hi => hasKeys_of_hasTargets (htargets i hi)) hparts hindex
  -- the first `n` items are read, for all `n`
  suffices hfirst : ∀ n ≤ body.length, ∃ code, ReadsCode t 0 (parts.take n).flatten code ∧
      (∀ p ∈ code, ∀ target ∈ p.2.targets, IsTarget body l target) ∧
      ∀ position < n, ∀ i, body[position]? = some (.instruction i) →
        ∃ j, (l.offset position, j) ∈ code by
    obtain ⟨code, hread, hcode, hall⟩ := hfirst body.length (Nat.le_refl _)
    rw [← hlength, List.take_length] at hread
    refine ⟨code, hread, hcode, fun position i hi => ?_⟩
    exact hall position (List.getElem?_eq_some_iff.1 hi).1 i hi
  intro n
  induction n with
  | zero => exact fun _ => ⟨[], .nil 0, by simp, nofun⟩
  | succ n ih =>
    intro hn
    obtain ⟨code, hread, hcode, hall⟩ := ih (by omega)
    have hpart := hparts.get (by rw [List.length_zipIdx]; omega) (hlength ▸ hn)
    simp only [List.get_eq_getElem, List.getElem_zipIdx, Nat.zero_add] at hpart
    have hlt : n < parts.length := hlength ▸ hn
    have htake := flatten_take_succ (List.getElem?_eq_getElem hlt)
    have hnext : l.offset (n + 1) = l.offset n + parts[n].length := by
      rw [hoffset hn, hoffset (by omega), htake, List.length_append]
    rw [htake]
    cases hitem : body[n] with
    | instruction i =>
      rw [hitem] at hpart
      have hi : body[n]? = some (.instruction i) := by rw [List.getElem?_eq_getElem hn, hitem]
      have hmem := List.mem_of_getElem? hi
      obtain ⟨more, hmore, hbegin, hmoretargets⟩ :=
        exists_readsCode_of_item ht hsites hi (hfamily i hmem) (htargets i hmem) hpart hnext
      refine ⟨code ++ more, hread.append ?_, ?_, ?_⟩
      · rwa [Nat.zero_add, ← hoffset (by omega)]
      · intro p hp
        rcases List.mem_append.1 hp with hp | hp
        · exact hcode p hp
        · exact hmoretargets p hp
      · intro position hposition i' hi'
        rcases Nat.lt_succ_iff_lt_or_eq.1 hposition with hlt | rfl
        · obtain ⟨j, hj⟩ := hall position hlt i' hi'
          exact ⟨j, List.mem_append_left _ hj⟩
        · obtain ⟨j, hj⟩ := hbegin
          exact ⟨j, List.mem_append_right _ hj⟩
    | _ =>
      -- a marker takes no bytes
      rw [hitem] at hpart
      rw [fixed_pure_iff.1 hpart, List.append_nil]
      refine ⟨code, hread, hcode, fun position hposition i hi => ?_⟩
      rcases Nat.lt_succ_iff_lt_or_eq.1 hposition with hlt | rfl
      · exact hall position hlt i hi
      · rw [List.getElem?_eq_getElem hn, hitem] at hi
        cases hi

/-! ## Places -/

namespace Layout

/-- Behind the end of a body there is no place. -/
theorem offset_of_length_lt (hl : Fixed P (Layout.of body) l) {position : Nat}
    (hposition : body.length < position) : l.offset position = 0 := by
  obtain ⟨rooms, far, hrooms, hfar, rfl, -⟩ := fixed_of hl
  have hlength : rooms.length = body.length := (fixed_roomsOf_iff.1 hrooms).length_eq.symm
  rw [offset_place, List.getElem?_eq_none ?_, Option.getD_none]
  rw [length_startsFrom, List.length_zip]
  omega

/-- A marker takes no room, wherever the items are placed. -/
theorem offset_succ_of_marker_place {rooms : List Room} {far : List Bool}
    (hrooms : List.Forall₂ (fun item room => Fixed P (roomOfItem item) room) body rooms)
    (hfar : far.length = body.length) {position : Nat} {item : Item}
    (hitem : body[position]? = some item) (hmarker : item.isMarker = true) :
    (Layout.place body rooms far).offset (position + 1) =
      (Layout.place body rooms far).offset position := by
  obtain ⟨hlt, hat⟩ := List.getElem?_eq_some_iff.1 hitem
  have hroom := hrooms.get hlt (hrooms.length_eq ▸ hlt)
  rw [List.get_eq_getElem, hat] at hroom
  have hmark : rooms[position]? = some .marker := by
    rw [List.getElem?_eq_getElem (hrooms.length_eq ▸ hlt)]
    cases item with
    | instruction i => cases hmarker
    | _ => exact congrArg some (fixed_pure_iff.1 hroom)
  rw [offset_succ hmark (List.getElem?_eq_getElem (hfar ▸ hlt))]
  rfl

/-- A marker takes no room in the layout of a body. -/
theorem offset_succ_of_marker (hl : Fixed P (Layout.of body) l) {position : Nat} {item : Item}
    (hitem : body[position]? = some item) (hmarker : item.isMarker = true) :
    l.offset (position + 1) = l.offset position := by
  obtain ⟨rooms, far, hrooms, hfar, rfl, -⟩ := fixed_of hl
  exact offset_succ_of_marker_place (fixed_roomsOf_iff.1 hrooms) hfar hitem hmarker

/-- The positions that no instruction follows on have the offset of the end. -/
theorem offset_eq_of_not_isFollowed (hl : Fixed P (Layout.of body) l) {position : Nat}
    (hposition : position ≤ body.length) (hnot : ¬ IsFollowed body position) :
    l.offset position = l.offset body.length := by
  obtain ⟨n, hn⟩ := Nat.exists_eq_add_of_le hposition
  -- on the number of items behind
  induction n generalizing position with
  | zero => rw [hn, Nat.add_zero]
  | succ n ih =>
    have hlt : position < body.length := by omega
    have hdrop : body.drop position = body[position] :: body.drop (position + 1) :=
      List.drop_eq_getElem_cons hlt
    have hmarker : body[position].isMarker = true := by
      cases hitem : body[position] with
      | instruction i =>
        refine absurd ⟨i, ?_⟩ hnot
        rw [hdrop, hitem]
        exact List.mem_cons_self ..
      | _ => rfl
    rw [← offset_succ_of_marker hl (List.getElem?_eq_getElem hlt) hmarker]
    refine ih hlt ?_ (by omega)
    rintro ⟨i, hi⟩
    exact hnot ⟨i, hdrop ▸ List.mem_cons_of_mem _ hi⟩

end Layout

namespace IsRead

variable {code : List (Nat × Instruction Int)} (hread : IsRead t body l bytes code)
include hread

/-- A position that an instruction follows on has the offset of one. -/
theorem exists_of_isFollowed (hl : Fixed P (Layout.of body) l) {position : Nat}
    (hfollowed : IsFollowed body position) : ∃ j, (l.offset position, j) ∈ code := by
  obtain ⟨i, hi⟩ := hfollowed
  -- on the items from the position on
  induction hrest : body.drop position generalizing position with
  | nil =>
    rw [hrest] at hi
    cases hi
  | cons item rest ih =>
    have hitem : body[position]? = some item := by
      rw [← List.head?_drop, hrest]
      rfl
    cases hmarker : item.isMarker with
    | false =>
      cases item with
      | instruction j => exact hread.instructions position j hitem
      | _ => cases hmarker
    | true =>
      rw [← Layout.offset_succ_of_marker hl hitem hmarker]
      have hbehind : body.drop (position + 1) = rest := by
        rw [← List.tail_drop, hrest]
        rfl
      refine ih ?_ hbehind
      rw [hbehind]
      rw [hrest] at hi
      rcases List.mem_cons.1 hi with rfl | hi
      · cases hmarker
      · exact hi

/-- Every position has the offset of an instruction or that of the end. -/
theorem exists_or_eq_length (hl : Fixed P (Layout.of body) l)
    (hend : l.offset body.length = bytes.length) (position : Nat) :
    (∃ j, (l.offset position, j) ∈ code) ∨ l.offset position = bytes.length := by
  have hinside {position : Nat} (hposition : position ≤ body.length) :
      (∃ j, (l.offset position, j) ∈ code) ∨ l.offset position = bytes.length := by
    by_cases hfollowed : IsFollowed body position
    · exact .inl (hread.exists_of_isFollowed hl hfollowed)
    · rw [Layout.offset_eq_of_not_isFollowed hl hposition hfollowed, hend]
      exact .inr rfl
  by_cases hposition : position ≤ body.length
  · exact hinside hposition
  · have hzero : l.offset position = l.offset 0 := by
      rw [Layout.offset_of_length_lt hl (by omega)]
      obtain ⟨rooms, far, -, -, rfl, -⟩ := Layout.fixed_of hl
      exact Layout.offset_zero.symm
    rw [hzero]
    exact hinside (Nat.zero_le _)

/-- In a legible body the targets are offsets of instructions. -/
theorem exists_of_isTarget (hl : Fixed P (Layout.of body) l) (hbody : LegibleIn l body) {target : Int}
    (htarget : IsTarget body l target) : ∃ p ∈ code, (p.1 : Int) = target := by
  have hfound {position : Nat} (hfollowed : IsFollowed body position) :
      ∃ p ∈ code, (p.1 : Int) = l.offset position := by
    obtain ⟨j, hj⟩ := hread.exists_of_isFollowed hl hfollowed
    exact ⟨_, hj, rfl⟩
  rcases htarget with ⟨i, label, hi, hlabel, offset, hresolve, rfl⟩ |
    ⟨position, i, hi, hconditional, hfar, rfl⟩
  · obtain ⟨position, hat, rfl⟩ := Layout.exists_of_resolve hl hresolve
    exact hfound (hbody.targets i hi label hlabel position hat)
  · exact hfound (hbody.conditionals position i hi hconditional hfar)

theorem reads_readOperations (hl : Fixed P (Layout.of body) l) (hbody : LegibleIn l body) :
    Reads (readOperations t bytes.length) bytes code := by
  refine hread.reads.reads_readOperations fun p hp target htarget => ?_
  obtain ⟨q, hq, rfl⟩ := hread.exists_of_isTarget hl hbody (hread.targets p hp target htarget)
  have hlt := hread.reads.lt_of_mem hq
  omega

end IsRead

end Encoding

end ClassTree
