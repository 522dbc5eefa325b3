/-
# ClassTree.Proofs.Rewriting.Instructions — instructions that are written as they were

An instruction that has been written is read as one that is written by the same bytes: as it was,
under the code for a long index or a far jump, or as the two jumps that a far conditional one had
become. So what is read of a code says of each of its instructions which bytes it has
(`RewritesCode`), and no jump among them is out of reach: the layout of the body that has been read
leaves every jump near, and is the old one.
-/
import ClassTree.Proofs.ReadBack.FreshCode
import ClassTree.Proofs.Rewriting.Piece

namespace ClassTree

open Decoding Encoding Encoder
open ModifiedUtf8 (stored)

variable {P : Pool} {t : Table} {offset : Nat} {bytes : Bytes}

namespace Instruction

variable {τ σ : Type} {i : Instruction τ}

/-- A switch over a range has a target for each key of the range, and a switch over single keys has
as many targets as keys. -/
def FitsKeys : Instruction τ → Prop
  | .tableSwitch low high _ targets => (targets.length : Int) = high - low + 1
  | .lookupSwitch _ keys targets => keys.length = targets.length
  | _ => True

theorem FitsKeys.hasKeys (h : i.FitsKeys) : HasKeys i := by
  cases i with
  | lookupSwitch otherwise keys targets => exact Nat.le_of_eq (Eq.symm h)
  | _ => trivial

/-- Only a switch over an empty range has no target. -/
theorem FitsKeys.hasTargets (h : i.FitsKeys)
    (hne : ∀ low otherwise, i ≠ .tableSwitch low (low - 1) otherwise []) : i.HasTargets := by
  cases i with
  | tableSwitch low high otherwise targets =>
    refine ⟨?_, h⟩
    cases targets with
    | nil =>
      have hkeys : ((0 : Nat) : Int) = high - low + 1 := h
      exact absurd (by rw [show high = low - 1 by omega]) (hne low otherwise)
    | cons target targets => exact Nat.succ_pos _
  | lookupSwitch otherwise keys targets => exact h
  | _ => trivial

end Instruction

/-! ## A switch over nothing -/

namespace Decoding

/-- A switch over an empty range can be written, but not read. -/
theorem parses_emptySwitch {low otherwise : Int} {isFar : Bool}
    (h : Fixed P (operation offset isFar (.tableSwitch low (low - 1) otherwise [])) bytes) :
    Parses False (readInstruction t offset) bytes fun _ => False := by
  simp only [operation, fixed_bind_iff, fixed_s4_iff, fixed_all_iff, fixed_pure_iff] at h
  obtain ⟨first, hfirst, second, hsecond, third, hthird, _, ⟨parts, hparts, rfl⟩, rfl⟩ := h
  cases hparts
  have hoperands (start : Nat) : Parses False (readOperands t .tableswitch offset start)
      (List.replicate (Bytes.padding offset) 0 ++ (first ++ (second ++ (third ++ []))))
      fun _ => False := by
    refine .of_reads reads_padding (.of_reads (Reads.of_signed? hfirst) ?_)
    refine .of_reads (Reads.of_signed? hsecond) (.of_reads (Reads.of_signed? hthird) ?_)
    rw [if_pos (show low - 1 < low by omega)]
    exact .fail id _ _
  have hread : Parses False (readInstruction t offset) ([codeByte .tableswitch] ++
      (List.replicate (Bytes.padding offset) 0 ++ (first ++ (second ++ (third ++ [])))))
        fun _ => False := by
    refine Parses.at_position fun start => .of_reads (Reads.byte _) ?_
    simp only [ofCode?_codeByte]
    exact hoperands start
  exact hread.cast (by simp [alignedCode])

/-- Instructions are not read past one that cannot be read. -/
theorem ReadsCode.exists_readOperationsOnto_eq_error {code : List (Nat × Instruction Int)}
    (h : ReadsCode t offset bytes code) {first : Bytes} (hfirst : Parses False
      (readInstruction t (offset + bytes.length)) first fun _ => False) (length fuel : Nat)
    (hlength : offset + bytes.length < length) (hfuel : bytes.length < fuel) (codeStart : Nat)
    (rest : Bytes)
    (acc : List (Nat × Instruction Int)) : ∃ e, readOperationsOnto t codeStart length fuel acc
      ⟨codeStart + offset, bytes ++ (first ++ rest)⟩ = .error e := by
  induction h generalizing fuel acc with
  | nil offset =>
    obtain ⟨fuel, rfl⟩ : ∃ n, fuel = n + 1 := ⟨fuel - 1, by omega⟩
    obtain ⟨-, e, he⟩ := (hfirst (codeStart + offset) rest).resolve_left fun h => h.choose_spec.1
    show ∃ e, (if codeStart + offset - codeStart < length then _ else _ : Decoder _) _ = .error e
    rw [if_pos (by simpa using hlength), Nat.add_sub_cancel_left]
    exact ⟨e, Decoder.bind_eq_error_iff.2 (.inl he)⟩
  | @cons offset part tail i code hread _ ih =>
    have hpos := pos_of_reads_readInstruction hread
    rw [List.length_append] at hlength hfuel
    rw [List.length_append, ← Nat.add_assoc] at hfirst
    obtain ⟨fuel, rfl⟩ : ∃ n, fuel = n + 1 := ⟨fuel - 1, by omega⟩
    obtain ⟨e, he⟩ := ih hfirst fuel (by omega) (by omega) ((offset, i) :: acc)
    show ∃ e, (if codeStart + offset - codeStart < length then _ else _ : Decoder _) _ = .error e
    rw [if_pos (by omega), Nat.add_sub_cancel_left, List.append_assoc]
    refine ⟨e, Decoder.bind_eq_error_iff.2 (.inr ⟨i, _, hread _ _, ?_⟩)⟩
    rw [Nat.add_assoc]
    exact he

/-- A code that is read has no instruction that cannot be read behind what has been read of it. -/
theorem ReadsCode.not_parses_nothing {code code' : List (Nat × Instruction Int)} {first rest : Bytes}
    (h : ReadsCode t 0 bytes code)
    (hread : Outline.whole (readOperations t (bytes ++ (first ++ rest)).length)
      (bytes ++ (first ++ rest)) =
      .ok code') (hne : first ≠ []) :
    ¬ Parses False (readInstruction t bytes.length) first fun _ => False := by
  intro hfirst
  have hpos : 0 < first.length := List.length_pos_of_ne_nil hne
  have hlength : (bytes ++ (first ++ rest)).length = bytes.length + (first.length + rest.length) := by
    simp
  obtain ⟨e, he⟩ := h.exists_readOperationsOnto_eq_error (by rwa [Nat.zero_add])
    (bytes ++ (first ++ rest)).length (bytes ++ (first ++ rest)).length (by omega) (by omega) 0 rest []
  obtain ⟨c, hread, -⟩ := whole_eq_ok_iff.1 hread
  obtain ⟨start, c₁, hstart, hread⟩ := Decoder.bind_eq_ok_iff.1 hread
  cases hstart
  obtain ⟨found, c₂, hfound, -⟩ := Decoder.bind_eq_ok_iff.1 hread
  cases he.symm.trans hfound

end Decoding

/-! ## Instructions -/

namespace Encoding

/-- Instructions in a row, each of which is read from some bytes and written by them: the one at
`offset` comes first. -/
inductive RewritesCode (t : Table) (P : Pool) : Nat → Bytes → List (Nat × Instruction Int) → Prop
  | nil (offset : Nat) : RewritesCode t P offset [] []
  | cons {offset : Nat} {first rest : Bytes} {i : Instruction Int} {code : List (Nat × Instruction Int)}
      (hread : Reads (readInstruction t offset) first i)
      (hwrite : Fixed P (operation offset false i) first)
      (hrest : RewritesCode t P (offset + first.length) rest code) :
      RewritesCode t P offset (first ++ rest) ((offset, i) :: code)

namespace RewritesCode

variable {bytes' : Bytes} {code code' : List (Nat × Instruction Int)}

theorem single {i : Instruction Int} (hread : Reads (readInstruction t offset) bytes i)
    (hwrite : Fixed P (operation offset false i) bytes) :
    RewritesCode t P offset bytes [(offset, i)] := by
  have h := cons hread hwrite (nil (t := t) (P := P) _)
  rwa [List.append_nil] at h

theorem append (h : RewritesCode t P offset bytes code)
    (h' : RewritesCode t P (offset + bytes.length) bytes' code') :
    RewritesCode t P offset (bytes ++ bytes') (code ++ code') := by
  induction h with
  | nil offset => exact h'
  | @cons offset first rest i code hread hwrite _ ih =>
    rw [List.append_assoc]
    refine .cons hread hwrite (ih ?_)
    rwa [Nat.add_assoc, ← List.length_append]

theorem readsCode (h : RewritesCode t P offset bytes code) : ReadsCode t offset bytes code := by
  induction h with
  | nil offset => exact .nil offset
  | cons hread _ _ ih => exact .cons hread ih

/-- An instruction of a code is written at its offset. -/
theorem exists_of_mem (h : RewritesCode t P offset bytes code) {p : Nat × Instruction Int}
    (hp : p ∈ code) :
    ∃ first, Fixed P (operation p.1 false p.2) first := by
  induction h with
  | nil offset => cases hp
  | @cons offset first rest i code hread hwrite _ ih =>
    rcases List.mem_cons.1 hp with rfl | hp
    · exact ⟨first, hwrite⟩
    · exact ih hp

end RewritesCode

section One

variable (ht : Backs stored t P) (hP : P.KeepsTexts)
include ht hP

/-- An instruction that is no jump and loads no constant is written as it was. -/
theorem fixed_operation_readAs {i : Instruction Int} (hconstant : i.family ≠ .constant)
    (hjump : i.family ≠ .jump) {isFar : Bool} (h : Fixed P (operation offset isFar i) bytes) :
    Fixed P (operation offset false (i.readAs stored)) bytes := by
  cases i with
  | constant op v => exact absurd rfl hconstant
  | jump op target => exact absurd rfl hjump
  | type op name =>
    obtain ⟨operand, hoperand, -⟩ := fixed_bind_iff.1 h
    obtain ⟨k, hk, -⟩ := fixed_index_iff.1 hoperand
    show Fixed P (operation offset false (.type op (name.map stored))) bytes
    rw [map_stored_of_fixed_addClass hP hk]
    exact h
  | field op owner name descriptor =>
    obtain ⟨operand, hoperand, -⟩ := fixed_bind_iff.1 h
    obtain ⟨k, hk, -⟩ := fixed_index_iff.1 hoperand
    obtain ⟨o, ho, m, hm, -⟩ := fixed_addField_iff.1 hk
    obtain ⟨hname, hdescriptor⟩ := stored_of_fixed_addNameAndType hP hm
    show Fixed P (operation offset false
      (.field op (owner.map stored) (stored name) (stored descriptor))) bytes
    rw [map_stored_of_fixed_addClass hP ho, hname, Option.some.inj hdescriptor]
    exact h
  | method op owner name descriptor interface =>
    obtain ⟨operand, hoperand, -⟩ := fixed_bind_iff.1
      (show Fixed P (call op owner name descriptor interface) bytes from h)
    obtain ⟨k, hk, -⟩ := fixed_index_iff.1 hoperand
    obtain ⟨o, ho, m, hm, -⟩ := fixed_addMethod_iff.1 hk
    obtain ⟨hname, hdescriptor⟩ := stored_of_fixed_addNameAndType hP hm
    show Fixed P (call op (owner.map stored) (stored name) (stored descriptor) interface) bytes
    rw [map_stored_of_fixed_addClass hP ho, hname, Option.some.inj hdescriptor]
    exact h
  | callSite name descriptor bootstrap arguments =>
    obtain ⟨indices, hindices, hrest⟩ := fixed_bind_iff.1
      (show Fixed P (callSite name descriptor bootstrap arguments) bytes from h)
    obtain ⟨handle, hhandle, hrest⟩ := fixed_bind_iff.1 hrest
    obtain ⟨method, hmethod, hrest⟩ := fixed_bind_iff.1 hrest
    obtain ⟨i, hi, hbytes⟩ := fixed_bind_iff.1 hrest
    obtain ⟨k, hk, -⟩ := fixed_index_iff.1 hi
    obtain ⟨m, hm, -⟩ := fixed_addInvokeDynamic_iff.1 hk
    obtain ⟨hname, hdescriptor⟩ := stored_of_fixed_addNameAndType hP hm
    show Fixed P (callSite (stored name) (stored descriptor) (bootstrap.stored stored)
      (arguments.map fun a => (a.1, a.2.readAs stored a.1))) bytes
    rw [hname, Option.some.inj hdescriptor]
    refine fixed_bind_iff.2 ⟨indices, ?_, fixed_bind_iff.2 ⟨handle, fixed_addHandle_stored hP hhandle,
      fixed_bind_iff.2 ⟨method, hmethod, fixed_bind_iff.2 ⟨i, hi, hbytes⟩⟩⟩⟩
    refine fixed_mapM_iff.2 (List.forall₂_map_left_iff.2 ((fixed_mapM_iff.1 hindices).imp ?_))
    exact fun a index hindex => fixed_addConstant_readAs ht hP hindex
  | multiArray descriptor dimensions =>
    obtain ⟨operand, hoperand, -⟩ := fixed_bind_iff.1 h
    obtain ⟨k, hk, -⟩ := fixed_index_iff.1 hoperand
    show Fixed P (operation offset false (.multiArray (descriptor.map stored) dimensions)) bytes
    rw [map_stored_of_fixed_addClass hP hk]
    exact h
  | _ => exact h

omit ht hP in
/-- The long form of a constant is found where the short one is. -/
theorem addLoaded_ldc_w (v : Constant) : addLoaded .ldc_w v = addLoaded .ldc v := by
  cases v <;> rfl

/-- A constant is written as it was, under the code for its index. -/
theorem fixed_loadConstant_readAs {op : Opcode} {v : Constant} (h : Fixed P (loadConstant op v) bytes) :
    Fixed P (loadConstant (if op = .ldc ∧ maxByte < loadedIndex P op v then .ldc_w else op)
      (v.readAs stored (Literal.loadedKind op v))) bytes := by
  obtain ⟨k, hk, hbytes⟩ := fixed_bind_iff.1 h
  have hread := fixed_addLoaded_readAs ht hP hk
  rw [loadedIndex_eq hk]
  split
  · next hlong =>
    obtain ⟨rfl, hlarge⟩ := hlong
    rw [if_neg fun hshort => Nat.not_lt.2 hshort.2 hlarge] at hbytes
    rw [← addLoaded_ldc_w] at hread
    refine fixed_bind_iff.2 ⟨k, hread, ?_⟩
    rw [if_neg fun hshort => by cases hshort.1]
    exact hbytes
  · exact fixed_bind_iff.2 ⟨k, hread, hbytes⟩

omit ht hP in
/-- A jump is written as it was, under its far code where it had to be far. -/
theorem fixed_jump_again {op : Opcode} {isFar : Bool} {distance : Int}
    (hnear : isFar = true → op.isFar = true ∨ op.isConditional = false)
    (h : Fixed P (jump op isFar distance) bytes) :
    Fixed P (jump (if isFar = true ∧ op.isFar = false then farCode op else op) false distance) bytes := by
  by_cases hfar : isFar = true ∧ op.isFar = false
  · have hnone : op.opposite? = none := by
      have hnot := (hnear hfar.1).resolve_left (by simp [hfar.2])
      simpa [Opcode.isConditional] using hnot
    rw [if_pos hfar]
    unfold jump at h ⊢
    rw [if_neg (by simp [hfar.2]), if_pos hfar.1, hnone] at h
    rw [if_pos (farCode_isFar op).2]
    exact h
  · rw [if_neg hfar]
    unfold jump at h ⊢
    split at h
    · next hop =>
      rw [if_pos hop]
      exact h
    · next hop =>
      rw [if_neg hop, if_neg (by simp)]
      rw [if_neg fun hisFar => hfar ⟨hisFar, by simpa using hop⟩] at h
      exact h

omit ht hP in
/-- A jump that is written as it is is read as it is. -/
theorem reads_nearJump {op : Opcode} (hfamily : op.family = .jump) {target : Int}
    (h : Fixed P (operation offset false (.jump op target)) bytes) :
    Reads (readInstruction t offset) bytes (.jump op target) := by
  have hread := reads_jump (t := t) hfamily (fun hfar => absurd hfar Bool.false_ne_true) h
  rwa [if_neg fun hfar => absurd hfar.1 Bool.false_ne_true] at hread

omit ht hP in
/-- The two jumps that a far conditional one has become are written as they were. -/
theorem rewritesCode_farConditional {op opposite : Opcode} (hopposite : op.opposite? = some opposite)
    {target : Int} (h : Fixed P (jump op true (target - offset)) bytes) :
    RewritesCode t P offset bytes
      [(offset, .jump opposite ((offset + 8 : Nat) : Int)), (offset + 3, .jump .goto_w target)] := by
  have hop : op.isFar = false := by cases op <;> cases hopposite <;> rfl
  obtain ⟨hfamily, hnear⟩ := jump_of_opposite hopposite
  unfold jump at h
  rw [if_neg (by simp [hop]), if_pos rfl, hopposite] at h
  simp only [fixed_bind_iff, fixed_s2_iff, fixed_s4_iff, fixed_pure_iff] at h
  obtain ⟨skip, hskip, distance, hdistance, rfl⟩ := h
  have hfirst : Fixed P (operation offset false (.jump opposite ((offset + 8 : Nat) : Int)))
      (codeByte opposite :: skip) := by
    show Fixed P (jump opposite false _) _
    unfold jump
    rw [if_neg (by simp [hnear]), if_neg (by simp)]
    have heq : ((offset + 8 : Nat) : Int) - offset = 8 := by omega
    rw [heq]
    exact fixed_bind_iff.2 ⟨skip, fixed_s2_iff.2 hskip, fixed_pure_iff.2 rfl⟩
  have hsecond : Fixed P (operation (offset + 3) false (.jump .goto_w target))
      (codeByte .goto_w :: distance) := by
    have heq : target - ((offset + 3 : Nat) : Int) = target - offset - 3 := by omega
    show Fixed P (jump .goto_w false (target - ((offset + 3 : Nat) : Int))) _
    rw [heq]
    exact fixed_bind_iff.2 ⟨distance, fixed_s4_iff.2 hdistance, fixed_pure_iff.2 rfl⟩
  have hlength : (codeByte opposite :: skip).length = 3 := by
    rw [List.length_cons, length_of_signed? hskip]
  have hlast := RewritesCode.single (t := t) (reads_nearJump rfl hsecond) hsecond
  rw [← hlength] at hlast ⊢
  exact .cons (reads_nearJump hfamily hfirst) hfirst hlast

/-- What has been written for an instruction is read as instructions that are written by the same
bytes. -/
theorem exists_rewritesCode (hsites : HasSites t P) {isFar : Bool} {i : Instruction Int}
    (hfamily : i.InFamily) (htargets : i.HasTargets) (h : Fixed P (operation offset isFar i) bytes) :
    ∃ code, RewritesCode t P offset bytes code := by
  have hregular := ht.isRegular_of_fixed_operation h
  by_cases hconstant : i.family = .constant
  · cases i with
    | constant op v =>
      obtain ⟨k, v', hk, hstores, (hread : Reads (readInstruction t offset) _ _)⟩ :=
        ht.toCarries.exists_reads_loadConstant hfamily hregular h
      have hwrite := fixed_loadConstant_readAs ht hP (show Fixed P (loadConstant op v) bytes from h)
      rw [← loadedIndex_eq hk, hstores.eq_readAs] at hread
      exact ⟨_, .single hread hwrite⟩
    | _ => cases hconstant
  by_cases hjump : i.family = .jump
  · cases i with
    | jump op target =>
      have hjump : Fixed P (jump op isFar (target - offset)) bytes := h
      by_cases hfar : isFar = true ∧ op.isConditional = true
      · obtain ⟨opposite, hopposite⟩ := Option.isSome_iff_exists.1 hfar.2
        rw [hfar.1] at hjump
        exact ⟨_, rewritesCode_farConditional hopposite hjump⟩
      · have hnear : isFar = true → op.isFar = true ∨ op.isConditional = false :=
          fun hisFar => .inr (by simpa [hisFar] using hfar)
        exact ⟨_, .single (reads_jump hfamily hnear hjump) (fixed_jump_again hnear hjump)⟩
    | _ => cases hjump
  · obtain ⟨i', hstores, hread⟩ :=
      ht.toCarries.exists_reads_operation hsites hfamily htargets hregular hconstant hjump h
    rw [hstores.eq_readAs] at hread
    exact ⟨_, .single hread (fixed_operation_readAs ht hP hconstant hjump h)⟩

end One

/-! ## A body -/

section Body

variable {l : Layout} {place : Text} {body : List Item}

/-- What is read of the code of a body consists of instructions that are written by the same bytes.
That it can be read shows that no switch of the body is one over nothing. -/
theorem rewritesCode_of_readOperations (ht : Backs stored t P) (hP : P.KeepsTexts) (hsites : HasSites t P)
    (hl : Fixed P (Layout.of body) l) (hfamily : ∀ i, .instruction i ∈ body → i.InFamily)
    (hfits : ∀ i, .instruction i ∈ body → i.FitsKeys) (h : Fixed P (operations l place body) bytes)
    {code : List (Nat × Instruction Int)}
    (hread : Outline.whole (readOperations t bytes.length) bytes = .ok code) :
    RewritesCode t P 0 bytes code ∧ ∀ i, .instruction i ∈ body → i.HasTargets := by
  obtain ⟨parts, hparts, rfl⟩ := fixed_all_iff.1 h
  have hlength : parts.length = body.length := by rw [← hparts.length_eq, List.length_zipIdx]
  have hoffset {n : Nat} (hn : n ≤ body.length) : l.offset n = (parts.take n).flatten.length :=
    offset_eq_length hl (fun i hi => (hfits i hi).hasKeys) hparts hn
  -- the first items are read and written again, and their switches have targets, for any number of
  -- them
  have hfirst (n : Nat) (hn : n ≤ body.length) :
      (∃ code, RewritesCode t P 0 (parts.take n).flatten code) ∧
      ∀ i, .instruction i ∈ body.take n → i.HasTargets := by
    induction n with
    | zero =>
      refine ⟨⟨[], .nil 0⟩, fun i hi => ?_⟩
      rw [List.take_zero] at hi
      exact absurd hi List.not_mem_nil
    | succ n ih =>
      obtain ⟨⟨before, hbefore⟩, htargets⟩ := ih (by omega)
      have hlt : n < parts.length := hlength ▸ hn
      have hpart := hparts.get (by rw [List.length_zipIdx]; omega) hlt
      simp only [List.get_eq_getElem, List.getElem_zipIdx, Nat.zero_add] at hpart
      have hstart : l.offset n = (parts.take n).flatten.length := hoffset (by omega)
      rw [flatten_take_succ (List.getElem?_eq_getElem hlt), List.take_add_one,
        List.getElem?_eq_getElem hn, Option.toList_some]
      cases hitem : body[n] with
      | instruction i =>
        have hmem : .instruction i ∈ body := hitem ▸ List.getElem_mem hn
        rw [hitem] at hpart
        obtain ⟨j, hmatches, hwrite⟩ := exists_of_fixed_item hpart
        rw [hstart] at hwrite
        have hi : i.HasTargets := by
          refine (hfits i hmem).hasTargets fun low otherwise heq => ?_
          subst heq
          cases hmatches with
          | tableSwitch low high h hs =>
            cases hs
            have hall : parts.flatten = (parts.take n).flatten ++
                (parts[n] ++ (parts.drop (n + 1)).flatten) := by
              rw [← List.flatten_cons, List.cons_getElem_drop_succ, ← List.flatten_append,
                List.take_append_drop]
            rw [hall] at hread
            refine hbefore.readsCode.not_parses_nothing hread ?_ (parses_emptySwitch hwrite)
            intro hnil
            rw [hnil] at hwrite
            simp [operation, alignedCode] at hwrite
        obtain ⟨code, hcode⟩ :=
          exists_rewritesCode ht hP hsites (hmatches.inFamily (hfamily i hmem))
          (hmatches.hasTargets hi) hwrite
        refine ⟨⟨before ++ code, hbefore.append (by rwa [Nat.zero_add])⟩, fun i' hi' => ?_⟩
        rcases List.mem_append.1 hi' with hi' | hi'
        · exact htargets i' hi'
        · obtain rfl := Item.instruction.inj (List.mem_singleton.1 hi')
          exact hi
      | _ =>
        rw [hitem] at hpart
        rw [fixed_pure_iff.1 hpart, List.append_nil]
        refine ⟨⟨before, hbefore⟩, fun i hi => ?_⟩
        rcases List.mem_append.1 hi with hi | hi
        · exact htargets i hi
        · cases List.mem_singleton.1 hi
  obtain ⟨⟨found, hfound⟩, htargets⟩ := hfirst body.length (Nat.le_refl _)
  rw [← hlength, List.take_length] at hfound
  rw [List.take_length] at htargets
  obtain rfl := eq_of_readOperations hfound.readsCode hread
  exact ⟨hfound, htargets⟩

end Body

/-! ## Rooms -/

section Rooms

theorem fixed_mapTargets {σ τ : Type} {R : σ → τ → Prop} {f : τ → Encoder σ} [∀ a, Growing (f a)]
    {i : Instruction τ} {j : Instruction σ} (h : j.Matches R i) (hf : ∀ s a, R s a → Fixed P (f a) s) :
    Fixed P (i.mapTargets f) j := by
  cases h with
  | jump op h => exact fixed_bind_iff.2 ⟨_, hf _ _ h, fixed_pure_iff.2 rfl⟩
  | tableSwitch low high h hs =>
    have htargets := fixed_mapM_iff.2 ((hs.imp hf).flip)
    exact fixed_bind_iff.2 ⟨_, hf _ _ h, fixed_bind_iff.2 ⟨_, htargets, fixed_pure_iff.2 rfl⟩⟩
  | lookupSwitch keys h hs =>
    have htargets := fixed_mapM_iff.2 ((hs.imp hf).flip)
    exact fixed_bind_iff.2 ⟨_, hf _ _ h, fixed_bind_iff.2 ⟨_, htargets, fixed_pure_iff.2 rfl⟩⟩
  | _ => exact fixed_pure_iff.2 rfl

/-- An instruction that is written has a room. -/
theorem exists_fixed_roomOf {R : Int → Label → Prop} {isFar : Bool} {j : Instruction Int}
    {i : Instruction Label} (hmatches : j.Matches R i) (h : Fixed P (operation offset isFar j) bytes) :
    ∃ room, Fixed P (roomOf i) room := by
  cases hmatches with
  | constant op v =>
    obtain ⟨k, hk, -⟩ := fixed_bind_iff.1 (show Fixed P (loadConstant op v) bytes from h)
    rw [roomOf]
    split
    · exact ⟨_, fixed_bind_iff.2 ⟨k, hk, fixed_pure_iff.2 rfl⟩⟩
    · exact ⟨_, fixed_pure_iff.2 rfl⟩
  | _ => exact ⟨_, fixed_pure_iff.2 rfl⟩

/-- The offset that a label was issued for. -/
def offsetOf (seen : List (Int × Label)) (label : Label) : Int :=
  ((seen.find? fun p => p.2 = label).map Prod.fst).getD 0

theorem offsetOf_eq {seen : List (Int × Label)} (hseen : (seen.map Prod.snd).Nodup) {place : Int}
    {label : Label} (h : Known seen place label) : offsetOf seen label = place := by
  unfold offsetOf
  cases hfind : seen.find? fun p => p.2 = label with
  | none => simpa using List.find?_eq_none.1 hfind _ h
  | some p =>
    have hlabel : p.2 = label := by simpa using List.find?_some hfind
    have hsame := List.inj_on_of_nodup_map hseen (List.mem_of_find?_eq_some hfind) h hlabel
    rw [hsame]
    rfl

/-- An instruction takes the bytes that it is written by. -/
theorem exists_room {seen : List (Int × Label)} (hseen : (seen.map Prod.snd).Nodup) {isFar : Bool}
    {j : Instruction Int} {i : Instruction Label} (hmatches : j.Matches (Known seen) i)
    (htargets : j.HasTargets) (h : Fixed P (operation offset isFar j) bytes) :
    ∃ room, Fixed P (roomOf i) room ∧ bytes.length = room.size offset isFar := by
  obtain ⟨room, hroom⟩ := exists_fixed_roomOf hmatches h
  have hplaced : Fixed P (i.mapTargets fun label => (pure (offsetOf seen label) : Encoder Int)) j :=
    fixed_mapTargets hmatches fun s a hknown => fixed_pure_iff.2 (offsetOf_eq hseen hknown).symm
  have hkeys : HasKeys i := by
    cases hmatches with
    | lookupSwitch keys _ hs => exact Nat.le_of_eq (hs.length_eq.symm.trans (Eq.symm htargets))
    | _ => trivial
  exact ⟨room, hroom, length_operation hplaced hkeys hroom h⟩

variable {r : RawCode} {seen : List (Int × Label)} {body items : List Item}
  {is : List (Nat × Instruction Int)} {rooms : List Room}

/-- The items of a body have rooms if its instructions are written. -/
theorem exists_rooms (h : r.Stands seen is items) (hwrites : ∀ p ∈ is, ∃ first,
    Fixed P (operation p.1 false p.2) first) :
    ∃ rooms, List.Forall₂ (fun item room => Fixed P (Layout.roomOfItem item) room) items rooms := by
  have hmarkers {offset : Int} {markers : List Item} (hmarkers : ∀ i ∈ markers, r.Owns seen offset i) :
      List.Forall₂ (fun item room => Fixed P (Layout.roomOfItem item) room) markers
        (markers.map fun _ => Room.marker) := by
    refine List.forall₂_map_right_iff.2 (List.forall₂_same.2 fun item hitem => ?_)
    cases item with
    | instruction i => cases hmarkers _ hitem
    | _ => exact fixed_pure_iff.2 rfl
  induction h with
  | done h => exact ⟨_, hmarkers h⟩
  | next hbefore hi _ ih =>
    obtain ⟨first, hfirst⟩ := hwrites _ List.mem_cons_self
    obtain ⟨room, hroom⟩ := exists_fixed_roomOf hi hfirst
    obtain ⟨rooms, hrooms⟩ := ih fun p hp => hwrites p (List.mem_cons_of_mem _ hp)
    exact ⟨_, List.rel_append (hmarkers hbefore) (.cons hroom hrooms)⟩

theorem RewritesCode.startOf_eq (h : RewritesCode t P offset bytes is) :
    startOf (offset + bytes.length) is = offset := by
  cases h with
  | nil => rfl
  | cons => rfl

section Near

variable (hrooms : List.Forall₂ (fun item room => Fixed P (Layout.roomOfItem item) room) body rooms)
include hrooms

theorem Layout.takes_markers (before markers rest : List Item) (lengths : List Nat)
    (hbody : body = before ++ (markers ++ rest)) (hmarkers : ∀ i ∈ markers, i.isMarker = true) :
    let l := Layout.place body rooms (body.map fun _ => false)
    l.offset (before.length + markers.length) = l.offset before.length ∧
      (l.Takes (before.length + markers.length) rest lengths →
        l.Takes before.length (markers ++ rest) lengths)
    := by
  intro l
  induction markers generalizing before with
  | nil => exact ⟨rfl, id⟩
  | cons item markers ih =>
    have hitem : body[before.length]? = some item := by rw [hbody]; simp
    have hmarker := hmarkers item List.mem_cons_self
    have hsame : l.offset (before.length + 1) = l.offset before.length :=
      Layout.offset_succ_of_marker_place hrooms (List.length_map _) hitem hmarker
    have hrest := ih (before ++ [item]) (by rw [hbody]; simp)
      fun i hi => hmarkers i (List.mem_cons_of_mem _ hi)
    have hlength : (before ++ [item]).length = before.length + 1 := by simp
    have hnext : before.length + (item :: markers).length = before.length + 1 + markers.length := by
      rw [List.length_cons]
      omega
    rw [hlength] at hrest
    rw [hnext]
    exact ⟨hrest.1.trans hsame, fun htakes => .marker hmarker hsame (hrest.2 htakes)⟩

/-- With every jump near, the items of a body take the bytes that its instructions are written by.
-/
theorem takes_of_stands (hseen : (seen.map Prod.snd).Nodup) (htargets : ∀ p ∈ is, p.2.HasTargets)
    (h : r.Stands seen is items) (hcode : RewritesCode t P offset bytes is) (before : List Item)
    (hbody : body = before ++ items) :
    let l := Layout.place body rooms (body.map fun _ => false)
    l.offset before.length = offset → l.Takes before.length items
    (lengthsTo (offset + bytes.length) is) := by
  intro l hoffset
  have hisMarker {offset : Int} {i : Item} (hi : r.Owns seen offset i) : i.isMarker = true := by
    cases i with
    | instruction i => cases hi
    | _ => rfl
  induction h generalizing before offset bytes with
  | @done markers hmarkers =>
    have htakes := (Layout.takes_markers hrooms before markers [] [] (by simpa using hbody)
      fun i hi => hisMarker (hmarkers i hi)).2 (.nil _)
    rwa [List.append_nil] at htakes
  | @next p rest markers items i hmarkers hi hrest ih =>
    cases hcode with
    | @cons _ first tail j code hread hwrite hcode =>
    obtain ⟨hsame, htakes⟩ := Layout.takes_markers hrooms before markers (.instruction i :: items)
      (lengthsTo (offset + (first ++ tail).length) ((offset, j) :: rest)) hbody
      fun i hi => hisMarker (hmarkers i hi)
    refine htakes ?_
    have hlength : (before ++ markers).length = before.length + markers.length := List.length_append
    have hlength' : (before ++ markers ++ [Item.instruction i]).length =
        before.length + markers.length + 1 := by
      rw [List.length_append, hlength, List.length_singleton]
    have hat : body[before.length + markers.length]? = some (.instruction i) := by
      rw [hbody, ← List.append_assoc, ← hlength]
      simp
    -- the room of the instruction has the size of its bytes
    obtain ⟨hlt, hget⟩ := List.getElem?_eq_some_iff.1 hat
    have hlt' := hrooms.length_eq ▸ hlt
    obtain ⟨room, hroom, hsize⟩ := exists_room hseen hi (htargets _ List.mem_cons_self) hwrite
    have hroom' := hrooms.get hlt hlt'
    rw [List.get_eq_getElem, hget] at hroom'
    have hroomAt : rooms[before.length + markers.length]? = some room := by
      rw [List.getElem?_eq_getElem hlt']
      exact congrArg some (hroom'.unique hroom)
    have hfar : (body.map fun _ => false)[before.length + markers.length]? = some false := by
      rw [List.getElem?_map, hat]
      rfl
    have hstart : l.offset (before.length + markers.length) = offset := hsame.trans hoffset
    have hnext : l.offset (before.length + markers.length + 1) = offset + first.length := by
      show (Layout.place body rooms (body.map fun _ => false)).offset _ = _
      rw [Layout.offset_succ hroomAt hfar, hsize]
      have hplace : (Layout.place body rooms (body.map fun _ => false)).offset
        (before.length + markers.length) = offset := hstart
      rw [hplace]
    have hrest := ih (fun q hq => htargets q (List.mem_cons_of_mem _ hq)) hcode
      (before ++ markers ++ [.instruction i]) (by rw [hbody]; simp) (by rw [hlength', hnext])
    have hstop : offset + first.length + tail.length = offset + (first ++ tail).length := by
      rw [List.length_append, Nat.add_assoc]
    have hcodeStart := hcode.startOf_eq
    rw [hstop] at hrest hcodeStart
    rw [hlength'] at hrest
    refine .instruction ?_ hrest
    show l.offset (before.length + markers.length + 1) =
      l.offset (before.length + markers.length) +
      (startOf (offset + (first ++ tail).length) rest - offset)
    rw [hnext, hstart, hcodeStart]
    omega

end Near

theorem Layout.Takes.lengthsFrom_eq {l : Layout} {position : Nat} {lengths : List Nat}
    (h : l.Takes position items lengths) : l.lengthsFrom position items = lengths := by
  induction h with
  | nil position => rfl
  | @marker position item rest lengths hmarker _ _ ih =>
    cases item with
    | instruction i => cases hmarker
    | _ => exact ih
  | @instruction position i rest lengths n hoffset _ ih =>
    rw [Layout.lengthsFrom, ih, hoffset, Nat.add_sub_cancel_left]

/-- A layout in which no near jump overreaches its target is the one that a body gets. -/
theorem Layout.fixed_of_near
    (hrooms : List.Forall₂ (fun item room => Fixed P (Layout.roomOfItem item) room) body rooms)
    (hnear : ∀ (position : Nat) item, body[position]? = some item →
      (Layout.place body rooms (body.map fun _ => false)).overreaches position item = false) :
    Fixed P (Layout.of body) (Layout.place body rooms (body.map fun _ => false)) := by
  have hgrow : (Layout.place body rooms (body.map fun _ => false)).grow body.toArray
      (body.map fun _ => false) = body.map fun _ => false := by
    refine List.ext_getElem? fun position => ?_
    unfold Layout.grow
    rw [List.getElem?_map, List.getElem?_zipIdx, List.getElem?_map]
    cases hitem : body[position]? with
    | none => rfl
    | some item =>
      have harray : body.toArray[0 + position]? = some item := by rw [Nat.zero_add]; simpa using hitem
      have hnone := hnear position item hitem
      rw [← Nat.zero_add position] at hnone
      refine congrArg some ?_
      dsimp only
      rw [harray, Bool.false_or]
      exact hnone
  refine fixed_bind_iff.2 ⟨rooms, Layout.fixed_roomsOf_iff.2 hrooms, fixed_pure_iff.2 ?_⟩
  rw [Layout.relax, dif_pos hgrow]

variable {l : LabelledCode} {code : Code}

/-- An instruction that is placed has been read at its offset. -/
theorem exists_of_mem_placed {frames : List (Nat × Frame)} {instructions : List (Instruction Label)}
    {offset : Nat} {i : Instruction Label}
    (h : (offset, .instruction i) ∈ r.placed (r.markers seen frames) instructions) :
    ∃ j, ((offset, j), i) ∈ r.instructions.zip instructions := by
  rcases List.mem_append.1 h with h | h
  · obtain ⟨p, hp, h⟩ := List.mem_flatMap.1 h
    obtain ⟨item, hitem, heq⟩ := List.mem_map.1 h
    cases heq
    rcases List.mem_append.1 hitem with hitem | hitem
    · cases RawCode.isMarker_of_mem_before hitem
    · obtain rfl := Item.instruction.inj (List.mem_singleton.1 hitem)
      exact ⟨p.1.2, hp⟩
  · obtain ⟨item, hitem, heq⟩ := List.mem_map.1 h
    cases heq
    cases RawCode.isMarker_of_mem_before hitem

/-- A near jump does not overreach its target if it is written. -/
theorem isNear_of_fixed_jump {op : Opcode} (hop : op.isFar = false) {target : Int}
    (h : Fixed P (operation offset false (.jump op target)) bytes) :
    Layout.isNear (target - offset) = true := by
  have hjump : Fixed P (jump op false (target - offset)) bytes := h
  unfold jump at hjump
  rw [if_neg (by simp [hop]), if_neg (by simp)] at hjump
  obtain ⟨operand, hoperand, -⟩ := fixed_bind_iff.1 hjump
  have hfits := fixed_s2_iff.1 hoperand
  unfold Bytes.signed? at hfits
  split at hfits
  · next hrange =>
    simp only [Layout.isNear, Bool.and_eq_true, decide_eq_true_eq]
    omega
  · cases hfits

/-- A jump does not overreach if its label is near. -/
theorem Layout.overreaches_eq_false {layout : Layout} {position : Nat} {op : Opcode} {target : Label}
    (h : ∀ there, layout.labels[target]? = some there → op.isFar = false →
      Layout.isNear (there - layout.offset position) = true) :
    layout.overreaches position (.instruction (.jump op target)) = false := by
  have hjump : layout.overreaches position (.instruction (.jump op target)) =
      (!op.isFar && layout.labels[target]?.any fun there =>
        !Layout.isNear (there - layout.offset position)) := by
    cases hthere : layout.labels[target]? <;> simp [Layout.overreaches, hthere]
  rw [hjump]
  cases hop : op.isFar with
  | true => rfl
  | false =>
    cases hthere : layout.labels[target]? with
    | none => rfl
    | some there => simp [h there hthere hop]

/-- Where the code that has been read is written again no jump is out of reach, and every
instruction keeps its length. -/
theorem RewritesCode.exists_layout (hcode : RewritesCode t P 0 bytes r.instructions)
    (hlength : r.length = bytes.length) (h : r.Assembles seen l code)
    (hinOrder : InOrder r.length r.instructions) (htargets : ∀ p ∈ r.instructions, p.2.HasTargets) :
    ∃ layout, Fixed P (Layout.of code.body) layout ∧ layout.lengthsFrom 0 code.body = r.lengths := by
  have hstands := h.stands
  obtain ⟨rooms, hrooms⟩ := exists_rooms hstands fun p hp => hcode.exists_of_mem hp
  have hstop : 0 + bytes.length = r.length := by rw [hlength, Nat.zero_add]
  have htakes : (Layout.place code.body rooms
      (code.body.map fun _ => false)).Takes 0 code.body r.lengths := by
    have htakes := takes_of_stands hrooms h.labels htargets hstands hcode [] rfl Layout.offset_zero
    rwa [hstop] at htakes
  have hstart : startOf r.length r.instructions = 0 := hstop ▸ hcode.startOf_eq
  -- so every item stands at the offset that it belongs to
  have hplaced {position : Nat} {item : Item} (hitem : code.body[position]? = some item) :
      ((Layout.place code.body rooms (code.body.map fun _ => false)).offset position, item) ∈
        r.placed (r.markers seen l.frames) l.instructions := by
    have hall := htakes
    rw [h.body] at hall
    rw [← RawCode.map_offset_eq_placed r _ h.labelled.instructions.length_eq hinOrder hstart
      Layout.offset_zero (by rw [← h.body] at hall ⊢; exact hall), ← h.body]
    exact List.mem_map.2 ⟨(item, position), List.mk_mem_zipIdx_iff_getElem?.2 hitem, rfl⟩
  refine ⟨_, Layout.fixed_of_near hrooms fun position item hitem => ?_, ?_⟩
  · cases item with
    | instruction i =>
      cases i with
      | jump op target =>
        refine Layout.overreaches_eq_false fun there hthere hop => ?_
        -- the label stands at the offset that the jump was read with, and two bytes held the
        -- distance
        obtain ⟨position', hat, rfl⟩ := Layout.exists_of_getElem?_labels hthere
        obtain ⟨j, hj⟩ := exists_of_mem_placed (hplaced hitem)
        have hmatches := h.labelled.instructions
        rw [List.forall₂_iff_zip] at hmatches
        cases hmatches.2 hj with
        | @jump _ t _ hknown =>
          have hsame := (Prod.mk.inj (List.inj_on_of_nodup_map h.labels
            (RawCode.known_of_mem_placed (hplaced hat)) hknown rfl)).1
          obtain ⟨first, hfirst⟩ := hcode.exists_of_mem (List.of_mem_zip hj).1
          rw [hsame]
          exact isNear_of_fixed_jump hop hfirst
      | _ => rfl
    | _ => rfl
  · exact htakes.lengthsFrom_eq

end Rooms

end Encoding

end ClassTree
