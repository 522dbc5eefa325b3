/-
# ClassTree.Proofs.ReadBack.ShortForms — the lengths of instructions that have been read

A near jump is read of three bytes, and a constant of the short form of two
(`forall₂_hasShortLength`). So an instruction that is written with the length that it was read with
is written in its short form (`isShortAt_of_hasShortLength`), and it stands for one instruction
again.

What else is read of some code has a form too: switches have the targets that their keys ask for,
jumps stay in the code, and frames have what belongs to their kinds and stand in the order of their
offsets, with short distances where the kind is short.
-/
import ClassTree.Proofs.Decoding.LookAhead
import ClassTree.Proofs.FrameCodec
import ClassTree.Proofs.LabelClosure
import ClassTree.Proofs.LocalVariables
import ClassTree.Proofs.ReadBack.Unchanged

namespace ClassTree

open Decoding Encoding Encoder

variable {P : Pool} {t : Table} {layout : Layout}

/-! ## Instructions of short forms -/

/-- An instruction of a short form that has a long one has the length of the short one. -/
def Instruction.HasShortLength {τ : Type} (i : Instruction τ) (n : Nat) : Prop :=
  match i with
  | .jump op _ => op.isFar = false → n = 3
  | .constant op _ => op = .ldc → n = 2
  | _ => True

theorem Instruction.HasShortLength.of_matches {τ σ : Type} {R : τ → σ → Prop} {i : Instruction τ}
    {j : Instruction σ} {n : Nat} (h : i.HasShortLength n) (hmatches : i.Matches R j) :
    j.HasShortLength n := by
  cases hmatches <;> exact h

theorem Instruction.IsProper.of_matches {τ σ : Type} {R : τ → σ → Prop} {i : Instruction τ}
    {j : Instruction σ} (h : j.IsProper) (hmatches : i.Matches R j) : i.IsProper := by
  cases hmatches <;> exact h

theorem Instruction.NamesFields.of_matches {τ σ : Type} {R : τ → σ → Prop} {i : Instruction τ}
    {j : Instruction σ} (h : j.NamesFields) (hmatches : i.Matches R j) : i.NamesFields := by
  cases hmatches <;> exact h

namespace Decoding

theorem skip_of_signed {width : Nat} {n : Int} {c c' : Cursor}
    (h : Decoder.signed width c = .ok (n, c')) :
    c' = c.skip width := by
  obtain ⟨data, c₁, hdata, h⟩ := Decoder.bind_eq_ok_iff.1 h
  cases h
  unfold Decoder.bytes at hdata
  obtain ⟨_, c₂, hneed, htake⟩ := Decoder.bind_eq_ok_iff.1 hdata
  obtain ⟨-, rfl⟩ := need_eq_ok hneed
  obtain ⟨here, c₃, hhere, htake⟩ := Decoder.bind_eq_ok_iff.1 htake
  cases hhere
  cases htake
  rfl

/-- An instruction of the family of its code, or one of those that a widening code makes. It has the
targets that its keys ask for. -/
structure IsOperandOf (family : Family) (i : Instruction Int) : Prop where
  family : i.family = family ∨ i.family = .increment ∨ i.family = .variable
  targets : i.HasTargets

/-- A switch over a range of keys has a target for each of them. -/
theorem finds_hasTargets_readTableSwitch (offset start : Nat) :
    Finds (readTableSwitch offset start) (IsOperandOf .tableSwitch) := by
  refine (Finds.skip _).any_bind fun _ => ?_
  refine (Finds.signed 3).bind fun otherwise _ => ?_
  refine (Finds.signed 3).bind fun low _ => (Finds.signed 3).bind fun high _ => ?_
  refine Finds.ite (fun _ => (Finds.refuse _ _).bind fun _ h => (h : False).elim) fun hle => ?_
  refine Finds.map (Finds.times (Q := fun _ => True) ((Finds.signed 3).map fun _ _ => trivial) _)
    fun targets htargets => ⟨.inl rfl, ?_, ?_⟩
  · have := htargets.1
    omega
  · have := htargets.1
    omega

/-- A switch over single keys has a target for each of them. -/
theorem finds_hasTargets_readLookupSwitch (offset start : Nat) :
    Finds (readLookupSwitch offset start) (IsOperandOf .lookupSwitch) := by
  refine (Finds.skip _).any_bind fun _ => ?_
  refine (Finds.signed 3).bind fun otherwise _ => (Finds.signed 3).bind fun count _ => ?_
  refine Finds.ite (fun _ => (Finds.refuse _ _).bind fun _ h => (h : False).elim) fun _ => ?_
  have hpair : Finds (do
      let key ← Decoder.signed 4
      return (key, (offset : Int) + (← Decoder.signed 4))) fun _ => True :=
    (Finds.signed 3).bind fun _ _ => (Finds.signed 3).map fun _ _ => trivial
  refine Finds.map (Finds.times hpair _) fun pairs _ => ⟨.inl rfl, ?_⟩
  show (pairs.map Prod.fst).length = (pairs.map Prod.snd).length
  rw [List.length_map, List.length_map]

/-- The operands are read that the family of the code calls for. -/
theorem finds_isOperandOf_readOperands (ht : t.IsReadable) (op : Opcode) (offset start : Nat) :
    Finds (readOperands t op offset start) (IsOperandOf op.family) := by
  have hconstant (i : Nat) : Finds (do return .constant op (← t.constant i).2)
      (IsOperandOf .constant) := (finds_constant ht i).map fun _ _ => ⟨.inl rfl, trivial⟩
  unfold readOperands
  cases hfamily : op.family with
  | plain => exact .pure ⟨.inl rfl, trivial⟩
  | widening =>
    refine Finds.byte.any_bind fun code => ?_
    split
    · exact Finds.u2_bind fun _ _ => (Finds.signed 1).map fun _ _ => ⟨.inr (.inl rfl), trivial⟩
    · exact Finds.ite (fun _ => Finds.u2.map fun _ _ => ⟨.inr (.inr rfl), trivial⟩)
        fun _ => .refuse _ _
    · exact .refuse _ _
  | immediate =>
    cases op with
    | bipush => exact (Finds.signed 0).map fun _ _ => ⟨.inl rfl, trivial⟩
    | sipush => exact (Finds.signed 1).map fun _ _ => ⟨.inl rfl, trivial⟩
    | _ => exact Finds.u1.map fun _ _ => ⟨.inl rfl, trivial⟩
  | constant =>
    exact Finds.ite (fun _ => Finds.u1.bind fun i _ => hconstant i)
      fun _ => Finds.u2_bind fun i _ => hconstant i
  | «variable» => exact Finds.u1.map fun _ _ => ⟨.inl rfl, trivial⟩
  | increment => exact Finds.u1.bind fun _ _ => (Finds.signed 0).map fun _ _ => ⟨.inl rfl, trivial⟩
  | jump =>
    have hdistance : Finds (Decoder.signed (if op.isFar then 4 else 2)) fun _ => True := by
      split
      · exact (Finds.signed 3).imp fun _ _ => trivial
      · exact (Finds.signed 1).imp fun _ _ => trivial
    exact hdistance.map fun _ _ => ⟨.inl rfl, trivial⟩
  | tableSwitch => exact finds_hasTargets_readTableSwitch offset start
  | lookupSwitch => exact finds_hasTargets_readLookupSwitch offset start
  | field => exact Finds.u2_bind fun i _ => (finds_member i).map fun _ _ => ⟨.inl rfl, trivial⟩
  | method =>
    refine Finds.u2_bind fun i _ => (finds_member i).any_bind fun m => ?_
    exact Finds.ite (fun _ => (Finds.skip 2).any_bind fun _ => .pure ⟨.inl rfl, trivial⟩)
      fun _ => .pure ⟨.inl rfl, trivial⟩
  | callSite =>
    refine Finds.u2_bind fun i _ => (Finds.entry i).bind fun e _ => ?_
    cases e with
    | invokeDynamic number member =>
      refine (Finds.skip 2).any_bind fun _ => (finds_nameAndType member).any_bind fun p => ?_
      obtain ⟨n, d⟩ := p
      dsimp only
      cases t.bootstrap[number]? with
      | none => exact .refuse _ _
      | some method =>
        refine (Finds.text n).any_bind fun name => (Finds.text d).any_bind fun descriptor => ?_
        refine (finds_handle ht method.handle).bind fun handle _ => ?_
        exact (Finds.mapM fun i _ => finds_constant ht i).map fun _ _ => ⟨.inl rfl, trivial⟩
    | _ => exact .wrongTag _ _ _
  | type => exact Finds.u2_bind fun i _ => (finds_className i).map fun _ _ => ⟨.inl rfl, trivial⟩
  | multiArray =>
    refine Finds.u2_bind fun i _ => (finds_className i).any_bind fun _ => ?_
    exact Finds.u1.map fun _ _ => ⟨.inl rfl, trivial⟩

/-- Switches have the targets that their keys ask for. -/
theorem finds_hasTargets_readOperations (ht : t.IsReadable) (length : Nat) :
    Finds (readOperations t length) fun code => ∀ p ∈ code, p.2.HasTargets := by
  refine finds_all_readOperations (fun offset => Finds.position_bind fun start => ?_) length
  refine Finds.byte.any_bind fun code => ?_
  cases Opcode.ofCode? code.toNat with
  | some op => exact (finds_isOperandOf_readOperands ht op offset start).imp fun _ h => h.targets
  | none => exact .refuse _ _

/-- The jumps of a code that has been read stay in it. -/
theorem inside_of_readOperations {length : Nat} {c c' : Cursor} {code : List (Nat × Instruction Int)}
    (h : readOperations t length c = .ok (code, c')) :
    ∀ p ∈ code, ∀ target ∈ p.2.targets, 0 ≤ target ∧ target < length := by
  obtain ⟨_, _, ⟨⟩, h⟩ := Decoder.bind_eq_ok_iff.1 h
  obtain ⟨found, c₁, -, h⟩ := Decoder.bind_eq_ok_iff.1 h
  obtain ⟨_, _, ⟨⟩, h⟩ := Decoder.bind_eq_ok_iff.1 h
  dsimp only at h
  split at h
  · obtain ⟨_, _, hcheck, h⟩ := Decoder.bind_eq_ok_iff.1 h
    cases h
    exact ((finds_checkTargets _ _ _).of_eq_ok hcheck).2
  · obtain ⟨_, _, ⟨⟩, -⟩ := Decoder.bind_eq_ok_iff.1 h

/-- A near jump is read of three bytes, and a constant of the short form of two. -/
theorem hasShortLength_of_readInstruction (ht : t.IsReadable) {offset : Nat} {i : Instruction Int}
    {c c' : Cursor} (h : readInstruction t offset c = .ok (i, c')) :
    i.HasShortLength (c'.position - c.position) := by
  obtain ⟨start, c₁, hstart, h⟩ := Decoder.bind_eq_ok_iff.1 h
  cases hstart
  obtain ⟨code, _, hcode, h⟩ := Decoder.bind_eq_ok_iff.1 h
  obtain rfl := skip_of_byte hcode
  cases hop : Opcode.ofCode? code.toNat with
  | none =>
    rw [hop] at h
    cases h
  | some op =>
    rw [hop] at h
    replace h : readOperands t op offset c.position (c.skip 1) = .ok (i, c') := h
    have hfamily := ((finds_isOperandOf_readOperands ht op offset c.position).of_eq_ok h).2.family
    cases i with
    | jump op' target =>
      have hjump : op.family = .jump := by
        rcases hfamily with hsame | hother | hother
        · exact hsame.symm
        · cases hother
        · cases hother
      unfold readOperands at h
      rw [hjump] at h
      obtain ⟨distance, _, hdistance, h⟩ := Decoder.bind_eq_ok_iff.1 h
      obtain rfl := skip_of_signed hdistance
      cases h
      intro hnear
      rw [hnear]
      show c.position + 1 + 2 - c.position = 3
      omega
    | constant op' value =>
      have hconstant : op.family = .constant := by
        rcases hfamily with hsame | hother | hother
        · exact hsame.symm
        · cases hother
        · cases hother
      unfold readOperands at h
      rw [hconstant] at h
      dsimp only at h
      by_cases hldc : op = .ldc
      · rw [if_pos hldc] at h
        obtain ⟨k, _, hk, h⟩ := Decoder.bind_eq_ok_iff.1 h
        obtain rfl := skip_of_unsigned hk
        obtain ⟨v, _, hv, h⟩ := Decoder.bind_eq_ok_iff.1 h
        obtain rfl := Table.eq_of_constant hv
        cases h
        intro _
        show c.position + 1 + 1 - c.position = 2
        omega
      · rw [if_neg hldc] at h
        obtain ⟨k, _, -, h⟩ := Decoder.bind_eq_ok_iff.1 h
        obtain ⟨v, _, -, h⟩ := Decoder.bind_eq_ok_iff.1 h
        cases h
        exact fun heq => absurd heq hldc
    | _ => trivial

/-- Each instruction of a code reaches to the next one, or to the end, with its own length. -/
theorem forall₂_hasShortLength (ht : t.IsReadable) {length : Nat} {c c' : Cursor}
    {code : List (Nat × Instruction Int)} (h : readOperations t length c = .ok (code, c')) :
    List.Forall₂ (fun p n => Instruction.HasShortLength p.2 n) code (lengthsTo length code) := by
  -- what is read from a place on begins there and ends at the place behind it
  have honto (fuel : Nat) (acc code : List (Nat × Instruction Int)) (k k' : Cursor)
      (hle : c.position ≤ k.position)
      (h : readOperationsOnto t c.position length fuel acc k = .ok (code, k')) :
      ∃ more, code = acc.reverse ++ more ∧
        startOf (k'.position - c.position) more = k.position - c.position ∧
        List.Forall₂ (fun p n => Instruction.HasShortLength p.2 n) more
          (lengthsTo (k'.position - c.position) more) := by
    induction fuel generalizing acc k with
    | zero =>
      cases h
      exact ⟨[], (List.append_nil _).symm, rfl, .nil⟩
    | succ fuel ih =>
      obtain ⟨_, _, ⟨⟩, h⟩ := Decoder.bind_eq_ok_iff.1 h
      split at h
      · next hinside =>
        obtain ⟨i, k₁, hi, h⟩ := Decoder.bind_eq_ok_iff.1 h
        have hpast := position_lt_of_readInstruction ht hi
        obtain ⟨more, rfl, hstart, hmore⟩ := ih _ _ (by omega) h
        refine ⟨(k.position - c.position, i) :: more, ?_, rfl, ?_⟩
        · rw [List.reverse_cons, List.append_assoc, List.singleton_append]
        · have hlength := hasShortLength_of_readInstruction ht hi
          refine .cons ?_ hmore
          rw [hstart, show k₁.position - c.position - (k.position - c.position) =
            k₁.position - k.position by omega]
          exact hlength
      · cases h
        exact ⟨[], (List.append_nil _).symm, rfl, .nil⟩
  obtain ⟨_, _, ⟨⟩, h⟩ := Decoder.bind_eq_ok_iff.1 h
  obtain ⟨found, c₁, hfound, h⟩ := Decoder.bind_eq_ok_iff.1 h
  obtain ⟨_, _, ⟨⟩, h⟩ := Decoder.bind_eq_ok_iff.1 h
  dsimp only at h
  split at h
  · next hend =>
    obtain ⟨_, _, -, h⟩ := Decoder.bind_eq_ok_iff.1 h
    cases h
    obtain ⟨more, rfl, -, hmore⟩ := honto _ _ _ _ _ (Nat.le_refl _) hfound
    rw [hend, Nat.add_sub_cancel_left] at hmore
    exact hmore
  · obtain ⟨_, _, ⟨⟩, -⟩ := Decoder.bind_eq_ok_iff.1 h

end Decoding

/-! ## Frames that have been read -/

/-- The distance of a frame is short if its kind is. -/
def Frame.IsWithin (f : Frame) (distance : Nat) : Prop :=
  f.kind = .same ∨ f.kind = .sameLocals1 → distance ≤ maxShortDistance

namespace Decoding

/-- A frame that is read has what belongs to its kind, and a short kind has a short distance. -/
theorem finds_hasForm_readFrame : Finds (readFrame t) fun p => p.2.HasForm ∧ p.2.IsWithin p.1 := by
  have hone (kind : FrameKind) (distance : Nat) (hkind : kind = .sameLocals1Extended ∨
      kind = .sameLocals1 ∧ distance ≤ maxShortDistance) :
      Finds (do return (distance, (⟨kind, [], [← readType t], 0⟩ : Frame))) fun p =>
        p.2.HasForm ∧ p.2.IsWithin p.1 := by
    refine finds_readType.map fun v _ => ?_
    rcases hkind with rfl | ⟨rfl, hle⟩
    · exact ⟨⟨rfl, rfl, rfl⟩, fun h => by rcases h with h | h <;> cases h⟩
    · exact ⟨⟨rfl, rfl, rfl⟩, fun _ => hle⟩
  refine Finds.position_bind fun start => ?_
  refine Finds.byte.any_bind fun code => ?_
  refine Finds.ite (fun hshort => ?_) fun hsame => ?_
  · exact .pure ⟨⟨rfl, rfl, rfl⟩, fun _ => Nat.le_of_lt_succ hshort⟩
  refine Finds.ite (fun hshort => hone _ _ (.inr ⟨rfl, ?_⟩)) fun _ => ?_
  · show code.toNat - 64 ≤ 63
    omega
  refine Finds.ite (fun _ => .refuse _ _) fun hlow => ?_
  refine Finds.u2_bind fun delta _ => ?_
  refine Finds.ite (fun _ => hone _ _ (.inl rfl)) fun hsingle => ?_
  have hnot {kind : FrameKind} (hkind : ¬ (kind = .same ∨ kind = .sameLocals1))
      (locals stack : List VerificationType) (chop : Int) :
      Frame.IsWithin ⟨kind, locals, stack, chop⟩ delta := fun h => absurd h hkind
  refine Finds.ite (fun hchop => .pure ⟨⟨rfl, rfl, ?_, ?_⟩, hnot (by simp) _ _ _⟩) fun hchop => ?_
  · show (1 : Int) ≤ 251 - code.toNat
    omega
  · show (251 : Int) - code.toNat ≤ 3
    omega
  refine Finds.ite (fun _ => .pure ⟨⟨rfl, rfl, rfl⟩, hnot (by simp) _ _ _⟩) fun hextended => ?_
  refine Finds.ite (fun happend => ?_) fun _ => ?_
  · refine (Finds.times finds_readType _).map fun locals hlocals =>
      ⟨⟨⟨?_, ?_⟩, rfl, rfl⟩, hnot (by simp) _ _ _⟩
    · show 1 ≤ locals.length
      omega
    · show locals.length ≤ 3
      omega
  · refine (Finds.listOf finds_readType).bind fun locals hlocals => ?_
    exact (Finds.listOf finds_readType).map fun stack hstack =>
      ⟨⟨hlocals.1, hstack.1, rfl⟩, hnot (by simp) _ _ _⟩

/-- Frames in the order of their offsets, each with what belongs to its kind; `next` is the least
offset that the first one may have. -/
inductive AreSpaced : Nat → List RawFrame → Prop
  | nil (next : Nat) : AreSpaced next []
  | cons {next : Nat} {f : RawFrame} {frames : List RawFrame} (hnext : next ≤ f.offset)
    (hform : f.frame.HasForm) (hwithin : f.frame.IsWithin (f.offset - next))
    (hrest : AreSpaced (f.offset + 1) frames) : AreSpaced next (f :: frames)

theorem AreSpaced.pairwise {next : Nat} {frames : List RawFrame} (h : AreSpaced next frames) :
    (∀ f ∈ frames, next ≤ f.offset) ∧ (frames.map RawFrame.offset).Pairwise (· < ·) := by
  induction h with
  | nil => exact ⟨nofun, .nil⟩
  | cons hnext _ _ _ ih =>
    refine ⟨fun g hg => ?_, List.pairwise_cons.2 ⟨fun o ho => ?_, ih.2⟩⟩
    · rcases List.mem_cons.1 hg with rfl | hg
      · exact hnext
      · exact Nat.le_trans hnext (Nat.le_of_lt (ih.1 g hg))
    · obtain ⟨g, hg, rfl⟩ := List.mem_map.1 ho
      exact ih.1 g hg

theorem AreSpaced.hasForm {next : Nat} {frames : List RawFrame} (h : AreSpaced next frames) :
    ∀ f ∈ frames, f.frame.HasForm := by
  induction h with
  | nil => exact nofun
  | cons _ hform _ _ ih => exact List.forall_mem_cons.2 ⟨hform, ih⟩

theorem areSpaced_placeFrames {deltas : List (Nat × Frame)}
    (h : ∀ p ∈ deltas, p.2.HasForm ∧ p.2.IsWithin p.1) (next : Nat) :
    AreSpaced next (placeFrames next deltas []) := by
  induction deltas generalizing next with
  | nil => exact .nil next
  | cons p deltas ih =>
    obtain ⟨hform, hwithin⟩ := h p List.mem_cons_self
    rw [placeFrames, placeFrames_eq]
    refine .cons (Nat.le_add_right _ _) hform ?_ (ih (fun q hq => h q (List.mem_cons_of_mem _ hq)) _)
    rw [Nat.add_sub_cancel_left]
    exact hwithin

/-- The frames of a code attribute that is read are in order. -/
theorem finds_areSpaced_readRawCode (ht : t.IsReadable) :
    Finds (readRawCode t) fun r => AreSpaced 0 r.tables.frames := by
  have htable (name : Text) (length : Nat) (tables : CodeTables) (h : AreSpaced 0 tables.frames) :
      Finds (readCodeAttribute t name length tables) fun tables => AreSpaced 0 tables.frames := by
    refine Finds.ite (fun _ => ?_) fun _ => Finds.ite (fun _ => ?_) fun _ =>
      Finds.ite (fun _ => ?_) fun _ => Finds.ite (fun _ => ?_) fun _ => ?_
    · exact (Finds.listOf finds_readLine).map fun _ _ => h
    · exact (Finds.listOf (finds_drawn_readVariable ht)).map fun _ _ => h
    · exact (Finds.listOf (finds_drawn_readVariable ht)).map fun _ _ => h
    · exact Finds.map ((Finds.all_listOf finds_hasForm_readFrame).map fun deltas hdeltas =>
        areSpaced_placeFrames hdeltas 0) fun _ hframes => hframes
    · exact (Finds.bytes length).map fun _ _ => h
  refine Finds.u2_bind fun stack _ => Finds.u2_bind fun locals _ => Finds.u4.bind fun length _ => ?_
  refine Finds.get_bind fun code => (Finds.need length).any_bind fun _ => ?_
  refine (Finds.skip length).any_bind fun _ => ?_
  refine (Finds.listOf (finds_drawn_readHandler ht)).bind fun handlers _ => ?_
  refine (Finds.attributes (S := fun tables : CodeTables => AreSpaced 0 tables.frames)
    (.nil 0) htable).bind
    fun tables htables => ?_
  exact ((finds_hasTargets_readOperations ht length).elsewhere code).map fun _ _ => htables

end Decoding

/-! ## Layouts with short forms -/

namespace Encoding.Layout

variable {body : List Item}

theorem exists_room (hl : Fixed P (Layout.of body) layout) {position : Nat} {i : Instruction Label}
    (hat : body[position]? = some (.instruction i)) : ∃ room, Fixed P (roomOf i) room ∧
      layout.offset (position + 1) =
        layout.offset position + room.size (layout.offset position) (layout.isFar position) := by
  obtain ⟨rooms, far, hrooms, hfar, rfl, -⟩ := fixed_of hl
  obtain ⟨hlt, heq⟩ := List.getElem?_eq_some_iff.1 hat
  have hall := fixed_roomsOf_iff.1 hrooms
  have hlt' : position < rooms.length := hall.length_eq ▸ hlt
  have hroom := hall.get hlt hlt'
  simp only [List.get_eq_getElem, heq] at hroom
  have hnear : (place body rooms far).isFar position = far[position] := by
    unfold isFar place
    simp [Array.getD_eq_getD_getElem?, hfar ▸ hlt]
  refine ⟨rooms[position], hroom, ?_⟩
  rw [hnear]
  exact offset_succ (List.getElem?_eq_getElem hlt') (List.getElem?_eq_getElem (hfar ▸ hlt))

/-- What is written in a short form: a constant has a short index, and a jump is near. -/
structure IsShortAt (P : Pool) (l : Layout) (position : Nat) (i : Instruction Label) : Prop where
  loads : LoadsShort P i
  near : ∀ op target, i = .jump op target → op.isFar = false → l.isFar position = false

/-- An instruction with the length of its short form is written in it. -/
theorem isShortAt_of_hasShortLength (hl : Fixed P (Layout.of body) layout) {position : Nat}
    {i : Instruction Label} (hat : body[position]? = some (.instruction i))
    (h : i.HasShortLength (layout.offset (position + 1) - layout.offset position)) :
    IsShortAt P layout position i := by
  obtain ⟨room, hroom, hnext⟩ := exists_room hl hat
  have hsize : layout.offset (position + 1) - layout.offset position =
      room.size (layout.offset position) (layout.isFar position) := by omega
  rw [hsize] at h
  cases i with
  | constant op v =>
    refine ⟨fun hop k hk => ?_, by rintro _ _ ⟨⟩⟩
    simp only [roomOf, if_pos hop, fixed_bind_iff, fixed_pure_iff] at hroom
    obtain ⟨k', hk', rfl⟩ := hroom
    obtain rfl := hk.unique hk'
    have htwo := h hop
    simp only [Room.size] at htwo
    by_contra hlarge
    rw [if_neg hlarge] at htwo
    cases htwo
  | jump op target =>
    refine ⟨trivial, ?_⟩
    rintro _ _ ⟨⟩ hop
    have hthree := h hop
    simp only [roomOf, hop, Bool.false_eq_true, if_false, fixed_pure_iff] at hroom
    rw [hroom] at hthree
    cases hfar : layout.isFar position with
    | false => rfl
    | true =>
      rw [hfar] at hthree
      simp only [Room.size, if_true] at hthree
      split at hthree <;> cases hthree
  | _ => exact ⟨trivial, by rintro _ _ ⟨⟩⟩

/-- There is one instruction for an instruction that is written in its short form. -/
theorem IsShortAt.shortRow_eq {position : Nat} {i : Instruction Label}
    (h : IsShortAt P layout position i) :
    shortRow layout position (i.placed layout) = [i.placed layout] := by
  cases i with
  | jump op target =>
    show rewritten (.seeded [] []) _ _ (.jump op _) = [.jump op _]
    rw [rewritten, if_neg]
    rintro ⟨hfar, hop⟩
    rw [h.near op target rfl hop] at hfar
    cases hfar
  | _ => rfl

/-- The lengths of a body are those of its instructions, one by one. -/
theorem forall_of_lengthsFrom {Q : Instruction Label → Nat → Prop}
    (h : List.Forall₂ Q (body.filterMap Item.instruction?) (layout.lengthsFrom 0 body))
    {position : Nat} {i : Instruction Label} (hat : body[position]? = some (.instruction i)) :
    Q i (layout.offset (position + 1) - layout.offset position) := by
  have hfrom (items : List Item) (start position : Nat)
      (h : List.Forall₂ Q (items.filterMap Item.instruction?) (layout.lengthsFrom start items))
      (hat : items[position]? = some (.instruction i)) :
      Q i (layout.offset (start + position + 1) - layout.offset (start + position)) := by
    induction items generalizing start position with
    | nil => cases hat
    | cons item items ih =>
      cases position with
      | zero =>
        obtain rfl : item = .instruction i := Option.some.inj hat
        cases h with
        | cons hi _ => exact hi
      | succ position =>
        have hnext : start + (position + 1) = start + 1 + position := by omega
        rw [hnext]
        cases item with
        | instruction j =>
          cases h with
          | cons _ hrest => exact ih _ _ hrest hat
        | _ => exact ih _ _ h hat
  have hall := hfrom body 0 position h hat
  rwa [Nat.zero_add] at hall

end Encoding.Layout

/-! ## The length of the code -/

theorem Encoding.Layout.Takes.offset_end {position : Nat} {items : List Item} {lengths : List Nat}
    (h : layout.Takes position items lengths) :
    layout.offset (position + items.length) = layout.offset position + lengths.sum := by
  induction h with
  | nil => rfl
  | marker _ hoffset _ ih =>
    rw [List.length_cons, Nat.add_comm _ 1, ← Nat.add_assoc, ih, hoffset]
  | instruction hoffset _ ih =>
    rw [List.length_cons, Nat.add_comm _ 1, ← Nat.add_assoc, ih, hoffset, List.sum_cons, Nat.add_assoc]

/-- Instructions in order take up what there is from the first of them on. -/
theorem Decoding.InOrder.startOf_add_sum {length : Nat} {code : List (Nat × Instruction Int)}
    (h : InOrder length code) : startOf length code + (lengthsTo length code).sum = length := by
  induction code with
  | nil => rfl
  | cons p code ih =>
    have hrest : InOrder length code :=
      ⟨(List.pairwise_cons.1 h.increasing).2, fun q hq => h.inside q (List.mem_cons_of_mem _ hq)⟩
    have hnext : p.1 ≤ startOf length code := by
      cases code with
      | nil => exact Nat.le_of_lt (h.inside p List.mem_cons_self)
      | cons q code => exact Nat.le_of_lt ((List.pairwise_cons.1 h.increasing).1 q.1 (by simp))
    have hsum := ih hrest
    rw [lengthsTo, List.sum_cons]
    show p.1 + _ = _
    omega

end ClassTree
