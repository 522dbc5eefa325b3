/-
# ClassTree.Proofs.Decoding.Storable — what is found in a class file can be stored

Every text comes from an entry of the pool, so a pool can hold it, and every list is counted in two
bytes. What is found in a class file is therefore drawn from it: it keeps within the bounds of the
fields that it is written to.
-/
import ClassTree.Proofs.Class.Drawn
import ClassTree.Proofs.Decoding.Sound

namespace ClassTree.Decoding

open Decoder

variable {t : Table}

/-! ## Texts -/

/-- A text in the pool of a class file can be stored. -/
theorem Table.IsReadable.isStorable (ht : t.IsReadable) {s : Text} (h : some (.utf8 s) ∈ t.entries) :
    s.IsStorable := ⟨(ht _ h).isRead, (ht _ h).isShort⟩

theorem Finds.storable (ht : t.IsReadable) (i : Nat) : Finds (t.utf8 i) Text.IsStorable :=
  (Finds.utf8 i).imp fun _ h => ht.isStorable h

theorem Finds.storable_bind (ht : t.IsReadable) {α : Type} {Q : α → Prop} {k : Text → Decoder α}
    (h : ∀ s, s.IsStorable → Finds (k s) Q) : Finds (Decoder.u2 >>= fun i => t.utf8 i >>= k) Q :=
  Finds.u2_bind fun i _ => (Finds.storable ht i).bind h

theorem finds_drawn_utf8? (ht : t.IsReadable) (i : Nat) :
    Finds (t.utf8? i) fun name => ∀ s ∈ name, s.IsStorable :=
  Finds.ite (fun _ => .pure nofun) fun _ => (Finds.storable ht i).map fun _ hs => by simpa using hs

theorem finds_drawn_className (ht : t.IsReadable) (i : Nat) :
    Finds (t.className i) fun name => ∀ s ∈ name, s.IsStorable := by
  refine Finds.ite (fun _ => .pure nofun) fun _ => ?_
  refine (Finds.entry i).bind fun e _ => ?_
  cases e with
  | type n => exact (Finds.storable ht n).map fun _ hs => by simpa using hs
  | _ => exact .wrongTag _ _ _

/-! ## Members and constants -/

/-- A field or a method whose texts can be stored. -/
structure Table.Member.IsDrawn (m : Table.Member) : Prop where
  owner : ∀ s ∈ m.owner, s.IsStorable
  name : m.name.IsStorable
  descriptor : m.descriptor.IsStorable

theorem finds_drawn_member (ht : t.IsReadable) (i : Nat) : Finds (t.member i) Table.Member.IsDrawn := by
  have hof (interface : Bool) (o m : Nat) : Finds (t.memberOf interface o m) Table.Member.IsDrawn := by
    refine (finds_nameAndType m).any_bind fun ⟨n, d⟩ => ?_
    refine (finds_drawn_className ht o).bind fun owner howner => ?_
    refine (Finds.storable ht n).bind fun name hname => ?_
    exact (Finds.storable ht d).map fun _ hdescriptor => ⟨howner, hname, hdescriptor⟩
  refine (Finds.entry i).bind fun e _ => ?_
  cases e with
  | fieldref o m | methodref o m | interfaceMethodref o m => exact hof _ o m
  | _ => exact .wrongTag _ _ _

theorem finds_drawn_handle (ht : t.IsReadable) (i : Nat) : Finds (t.handle i) Handle.IsStorable := by
  refine Finds.entry_bind ht fun e he => ?_
  cases e with
  | methodHandle kind target =>
    exact (finds_drawn_member ht target).bind fun m hm =>
      .pure ⟨he.1, hm.owner, hm.name, hm.descriptor⟩
  | _ => exact .wrongTag _ _ _

theorem finds_drawn_constant (ht : t.IsReadable) (i : Nat) :
    Finds (t.constant i) fun p => p.2.IsStorable := by
  refine (Finds.entry i).bind fun e _ => ?_
  cases e with
  | integer n | long n => exact .pure trivial
  | float x | double x => exact .pure trivial
  | string n | type n | methodType n => exact (Finds.storable ht n).map fun _ hs => hs
  | methodHandle kind target => exact (finds_drawn_handle ht i).map fun _ hh => hh
  | _ => exact .refuseHere _

/-! ## Instructions -/

/-- A table whose entries can be read, with bootstrap methods that fit their fields. -/
structure Table.IsDrawn (t : Table) : Prop where
  isReadable : t.IsReadable
  bootstrap : ∀ b ∈ t.bootstrap, b.IsFit

theorem finds_drawn_readWidened (start : Nat) : Finds (readWidened start) Instruction.IsDrawn := by
  have hvariable (op : Opcode) (code : UInt8) :
      Finds (if op.family = .variable then (do return .variable op (← u2))
        else refuse (.notWidenable code) start : Decoder (Instruction Int)) Instruction.IsDrawn :=
    Finds.ite (fun _ => Finds.u2.map fun _ _ => trivial) fun _ => .refuse _ _
  refine Finds.byte.any_bind fun code => ?_
  cases Opcode.ofCode? code.toNat with
  | none => exact .refuse _ _
  | some op =>
    by_cases hop : op = .iinc
    · subst hop
      exact Finds.u2_bind fun _ _ => (Finds.signed 1).map fun _ _ => trivial
    · have hmatch := hvariable op code
      cases op <;> first | exact absurd rfl hop | exact hmatch

theorem finds_drawn_readCallSite (ht : t.IsDrawn) (start : Nat) :
    Finds (readCallSite t start) Instruction.IsDrawn := by
  refine Finds.u2_bind fun i _ => ?_
  refine (Finds.entry i).bind fun e _ => ?_
  cases e with
  | invokeDynamic bootstrap member =>
    refine (Finds.skip 2).any_bind fun _ => ?_
    refine (finds_nameAndType member).any_bind fun ⟨n, d⟩ => ?_
    cases hmethod : t.bootstrap[bootstrap]? with
    | none => exact .refuse _ _
    | some method =>
      refine (Finds.storable ht.isReadable n).bind fun name hname => ?_
      refine (Finds.storable ht.isReadable d).bind fun descriptor hdescriptor => ?_
      refine (finds_drawn_handle ht.isReadable method.handle).bind fun handle hhandle => ?_
      refine Finds.map (Finds.mapM fun i _ => finds_drawn_constant ht.isReadable i)
        fun arguments harguments => ⟨⟨hname, hdescriptor⟩, hhandle, ?_, fun a ha => ?_⟩
      · rw [← harguments.length_eq]
        exact (ht.bootstrap method (Array.mem_of_getElem? hmethod)).length
      · obtain ⟨i, -, h⟩ := Result.exists_of_mem_right harguments ha
        exact h
  | _ => exact .wrongTag _ _ _

theorem finds_drawn_readOperands (ht : t.IsDrawn) (op : Opcode) (offset start : Nat) :
    Finds (readOperands t op offset start) Instruction.IsDrawn := by
  have hsigned (width : Nat) : Finds
      (do return Instruction.immediate op (← signed (width + 1)) : Decoder (Instruction Int))
      Instruction.IsDrawn := (Finds.signed width).map fun _ _ => trivial
  have hunsigned : Finds (do return Instruction.immediate op (← u1) : Decoder (Instruction Int))
      Instruction.IsDrawn := Finds.u1.map fun _ _ => trivial
  have hconstant (i : Nat) : Finds (do return .constant op (← t.constant i).2)
      (Instruction.IsDrawn (τ := Int)) := (finds_drawn_constant ht.isReadable i).map fun _ h => h
  unfold readOperands
  cases op.family with
  | plain => exact .pure trivial
  | widening => exact finds_drawn_readWidened start
  | immediate =>
    cases op with
    | bipush => exact hsigned 0
    | sipush => exact hsigned 1
    | _ => exact hunsigned
  | constant =>
    exact Finds.ite (fun _ => Finds.u1.bind fun i _ => hconstant i)
      fun _ => Finds.u2_bind fun i _ => hconstant i
  | «variable» => exact Finds.u1.map fun _ _ => trivial
  | increment => exact Finds.u1.bind fun _ _ => (Finds.signed 0).map fun _ _ => trivial
  | jump =>
    have hdistance : Finds (signed (if op.isFar then 4 else 2)) fun _ => True := by
      split
      · exact (Finds.signed 3).imp fun _ _ => trivial
      · exact (Finds.signed 1).imp fun _ _ => trivial
    exact hdistance.map fun _ _ => trivial
  | tableSwitch =>
    refine (finds_readTableSwitch offset start).imp ?_
    rintro _ ⟨low, high, otherwise, targets, rfl, -⟩
    trivial
  | lookupSwitch =>
    refine (finds_readLookupSwitch offset start).imp ?_
    rintro _ ⟨otherwise, keys, targets, rfl, -⟩
    trivial
  | field =>
    exact Finds.u2_bind fun i _ => (finds_drawn_member ht.isReadable i).map fun _ hm =>
      ⟨hm.owner, hm.name, hm.descriptor⟩
  | method =>
    refine Finds.u2_bind fun i _ => (finds_drawn_member ht.isReadable i).bind fun m hm => ?_
    have hdrawn : Instruction.IsDrawn (.method op m.owner m.name m.descriptor m.interface :
        Instruction Int) :=
      ⟨hm.owner, hm.name, hm.descriptor⟩
    exact Finds.ite (fun _ => (Finds.skip 2).any_bind fun _ => .pure hdrawn) fun _ => .pure hdrawn
  | callSite => exact finds_drawn_readCallSite ht start
  | type => exact Finds.u2_bind fun i _ => (finds_drawn_className ht.isReadable i).map fun _ h => h
  | multiArray =>
    exact Finds.u2_bind fun i _ => (finds_drawn_className ht.isReadable i).bind fun _ h =>
      Finds.u1.map fun _ _ => h

theorem finds_drawn_readOperations (ht : t.IsDrawn) (length : Nat) :
    Finds (readOperations t length) fun code => ∀ p ∈ code, p.2.IsDrawn := by
  refine finds_all_readOperations (fun offset => Finds.position_bind fun start => ?_) length
  refine Finds.byte.any_bind fun code => ?_
  cases Opcode.ofCode? code.toNat with
  | some op => exact finds_drawn_readOperands ht op offset start
  | none => exact .refuse _ _

/-! ## Frames -/

theorem finds_drawn_readType (ht : t.IsReadable) : Finds (readType t) VerificationType.IsDrawn := by
  refine Finds.position_bind fun start => ?_
  refine Finds.byte.any_bind fun tag => ?_
  split
  all_goals first
    | exact .pure trivial
    | exact .refuse _ _
    | exact Finds.u2.map fun _ _ => trivial
    | exact Finds.u2_bind fun i _ => (finds_drawn_className ht i).map fun _ h => h

theorem finds_drawn_readFrame (ht : t.IsReadable) : Finds (readFrame t) fun p => p.2.IsDrawn := by
  have hplain {kind : FrameKind} (hkind : kind = .same ∨ kind = .sameExtended) (delta : Nat) :
      Frame.IsDrawn (delta, (⟨kind, [], [], 0⟩ : Frame)).2 := by
    rcases hkind with rfl | rfl <;> exact ⟨trivial, by simp, by simp, by simp⟩
  have hone {kind : FrameKind} (hkind : kind = .sameLocals1 ∨ kind = .sameLocals1Extended) (delta : Nat) :
      Finds (do return (delta, (⟨kind, [], [← readType t], 0⟩ : Frame))) fun p => p.2.IsDrawn := by
    refine (finds_drawn_readType ht).map fun v hv => ?_
    rcases hkind with rfl | rfl <;> exact ⟨trivial, by simp, by simp, by simpa using hv⟩
  refine Finds.position_bind fun start => ?_
  refine Finds.byte.any_bind fun code => ?_
  refine Finds.ite (fun _ => .pure (hplain (.inl rfl) _)) fun _ => ?_
  refine Finds.ite (fun _ => hone (.inl rfl) _) fun _ => ?_
  refine Finds.ite (fun _ => .refuse _ _) fun hlow => ?_
  refine Finds.u2_bind fun delta _ => ?_
  refine Finds.ite (fun _ => hone (.inr rfl) _) fun hone => ?_
  refine Finds.ite (fun hchop => .pure ?_) fun hchop => ?_
  · exact ⟨⟨by dsimp only; omega, by dsimp only; omega⟩, by simp, by simp, by simp⟩
  refine Finds.ite (fun _ => .pure (hplain (.inr rfl) _)) fun hsame => ?_
  refine Finds.ite (fun happend => ?_) fun _ => ?_
  · refine (Finds.times (finds_drawn_readType ht) _).map fun locals hlocals => ?_
    exact ⟨⟨by dsimp only; omega, by dsimp only; omega⟩, by simp,
      ⟨by dsimp only; omega, hlocals.2⟩, by simp⟩
  · refine (Finds.listOf (finds_drawn_readType ht)).bind fun locals hlocals => ?_
    exact (Finds.listOf (finds_drawn_readType ht)).map fun stack hstack =>
      ⟨trivial, by simp, hlocals, hstack⟩

theorem length_placeFrames (next : Nat) (frames : List (Nat × Frame)) (acc : List RawFrame) :
    (placeFrames next frames acc).length = acc.length + frames.length := by
  induction frames generalizing next acc with
  | nil => exact List.length_reverse
  | cons p frames ih =>
    rw [placeFrames, ih, List.length_cons, List.length_cons]
    omega

theorem finds_drawn_readStackMap (ht : t.IsReadable) :
    Finds (readStackMap t) fun frames => frames.length < 0x10000 ∧ ∀ f ∈ frames, f.frame.IsDrawn := by
  refine (Finds.listOf (finds_drawn_readFrame ht)).map fun frames hframes => ⟨?_, fun f hf => ?_⟩
  · rw [length_placeFrames, List.length_nil, Nat.zero_add]
    exact hframes.1
  · rcases mem_placeFrames hf with hacc | ⟨p, hp, heq⟩
    · cases hacc
    · exact heq ▸ hframes.2 p hp

/-! ## Annotations -/

theorem finds_drawn_readNamed (ht : t.IsReadable) {value : Decoder ElementValue}
    (h : Finds value ElementValue.IsDrawn) : Finds (readNamed t value) fun values =>
      values.length < 0x10000 ∧ ElementValue.AreDrawnNamed values := by
  refine (Finds.listOf (Q := fun p => p.1.IsStorable ∧ p.2.IsDrawn) ?_).imp fun values hvalues =>
    ⟨hvalues.1, ElementValue.areDrawnNamed_iff.2 hvalues.2⟩
  exact Finds.storable_bind ht fun name hname => h.map fun _ hv => ⟨hname, hv⟩

theorem finds_drawn_readElementWith (ht : t.IsReadable) (visible : Bool) (fuel : Nat) :
    Finds (readElementWith t visible fuel) ElementValue.IsDrawn := by
  induction fuel with
  | zero => exact .refuseHere _
  | succ fuel ih =>
    have htext {tag : ElementTag} (htag : tag ∈ ElementTag.all) : Finds
        (do return ElementValue.scalar tag (.text (← t.utf8 (← u2)))) ElementValue.IsDrawn :=
      Finds.storable_bind ht fun _ hs => .pure ⟨htag, hs⟩
    refine Finds.position_bind fun start => ?_
    refine Finds.byte.any_bind fun code => ?_
    split
    · exact htext (by decide)
    · exact htext (by decide)
    · next tag hletter =>
      refine Finds.u2_bind fun i _ => ?_
      exact (finds_drawn_constant ht i).map fun _ hv => ⟨List.mem_of_find?_eq_some hletter, hv⟩
    · refine Finds.ite (fun _ => ?_) fun _ => Finds.ite (fun _ => ?_) fun _ =>
        Finds.ite (fun _ => ?_) fun _ => .refuse _ _
      · exact Finds.storable_bind ht fun _ hdescriptor => Finds.storable_bind ht fun _ hname =>
          .pure ⟨hdescriptor, hname⟩
      · refine Finds.storable_bind ht fun descriptor hdescriptor => ?_
        exact (finds_drawn_readNamed ht ih).map fun _ hvalues => ⟨hdescriptor, hvalues⟩
      · exact (Finds.listOf ih).map fun _ hvs => ⟨hvs.1, ElementValue.areDrawn_iff.2 hvs.2⟩

theorem finds_drawn_readElement (ht : t.IsReadable) (visible : Bool) :
    Finds (readElement t visible) ElementValue.IsDrawn :=
  Finds.any_bind (Finds.get_bind fun _ => .pure trivial) fun fuel =>
    finds_drawn_readElementWith ht visible fuel

theorem finds_drawn_readAnnotationUses (ht : t.IsReadable) (visible : Bool) :
    Finds (readAnnotationUses t visible) fun as => ∀ a ∈ as, a.IsDrawn ∧ a.visible = visible := by
  refine Finds.any_bind (Finds.get_bind fun _ => .pure trivial) fun fuel => ?_
  refine Finds.all_listOf (Finds.storable_bind ht fun descriptor hdescriptor => ?_)
  exact (finds_drawn_readNamed ht (finds_drawn_readElementWith ht visible fuel)).map fun _ hvalues =>
    ⟨⟨hdescriptor, hvalues.1, hvalues.2⟩, rfl⟩

end ClassTree.Decoding
