/-
# ClassTree.Proofs.Decoding.Sound — what is found in a class file

Every part of a class file is decoded to a sound part of a class, or malformed bytes are reported.
The facts about the numbers go back to the widths of their fields, those about constants to the
entries of the pool.
-/
import ClassTree.Decoding.Operation
import ClassTree.Decoding.Element
import ClassTree.Decoding.StackMap
import ClassTree.Proofs.Pool.Seed

namespace ClassTree.Decoding

open Decoder

variable {t : Table}

/-! ## Constants -/

/-- The entries of a table can be read. -/
def Table.IsReadable (t : Table) : Prop := Pool.AreReadable t.entries

theorem Finds.entry_bind {α : Type} {Q : α → Prop} (ht : t.IsReadable) {i : Nat}
    {k : Pool.Entry → Decoder α} (h : ∀ e : Pool.Entry, e.InRange → Finds (k e) Q) :
    Finds (t.entry i >>= k) Q :=
  (Finds.entry i).bind fun e he => h e (ht e he).inRange

theorem Finds.text (i : Nat) : Finds (t.utf8 i) fun _ => True := (Finds.utf8 i).imp fun _ _ => trivial

theorem Finds.text_bind {α : Type} {Q : α → Prop} {k : Text → Decoder α} (h : ∀ s, Finds (k s) Q) :
    Finds (Decoder.u2 >>= fun i => t.utf8 i >>= k) Q :=
  Finds.u2_bind fun i _ => (Finds.text i).any_bind h

theorem finds_utf8? (i : Nat) : Finds (t.utf8? i) fun _ => True :=
  Finds.ite (fun _ => .pure trivial) fun _ => (Finds.text i).map fun _ _ => trivial

theorem finds_className (i : Nat) : Finds (t.className i) fun _ => True := by
  refine Finds.ite (fun _ => .pure trivial) fun _ => ?_
  refine (Finds.entry i).bind fun e _ => ?_
  cases e with
  | type n => exact (Finds.text n).map fun _ _ => trivial
  | _ => exact .wrongTag _ _ _

theorem finds_nameAndType (i : Nat) : Finds (t.nameAndType i) fun _ => True := by
  refine (Finds.entry i).bind fun e _ => ?_
  cases e with
  | nameAndType n d => exact .pure trivial
  | _ => exact .wrongTag _ _ _

theorem finds_member (i : Nat) : Finds (t.member i) fun _ => True := by
  have hof (interface : Bool) (o m : Nat) : Finds (t.memberOf interface o m) fun _ => True := by
    refine (finds_nameAndType m).any_bind fun ⟨n, d⟩ => ?_
    refine (finds_className o).any_bind fun owner => ?_
    refine (Finds.text n).any_bind fun name => ?_
    exact (Finds.text d).map fun _ _ => trivial
  refine (Finds.entry i).bind fun e _ => ?_
  cases e with
  | fieldref o m | methodref o m | interfaceMethodref o m => exact hof _ o m
  | _ => exact .wrongTag _ _ _

/-- A method handle; its kind is a byte. -/
theorem finds_handle (ht : t.IsReadable) (i : Nat) : Finds (t.handle i) fun h => IsInt h.kind := by
  refine Finds.entry_bind ht fun e he => ?_
  cases e with
  | methodHandle kind target =>
    refine (finds_member target).any_bind fun m => ?_
    have hkind : 0 ≤ kind ∧ kind < 0x100 := he.1
    exact .pure ⟨by dsimp only; omega, by dsimp only; omega⟩
  | _ => exact .wrongTag _ _ _

/-- A constant that can be loaded is of the kind that it is given with. -/
theorem finds_constant (ht : t.IsReadable) (i : Nat) :
    Finds (t.constant i) fun p => Literal.IsNamed p.1 p.2 := by
  have hliteral {kind : Literal.Kind} {value : Constant} (hkind : kind ∈ Literal.passable)
      (h : Literal.IsOf kind value) : Literal.IsNamed kind.name value := .literal hkind h
  refine Finds.entry_bind ht fun e he => ?_
  cases e with
  | integer n => exact .pure (hliteral (by decide) (.int he))
  | float x => exact .pure (hliteral (by decide) (.float x))
  | long n => exact .pure (hliteral (by decide) (.long he))
  | double x => exact .pure (hliteral (by decide) (.double x))
  | string n => exact (Finds.text n).map fun s _ => hliteral (by decide) (.string s)
  | type n => exact (Finds.text n).map fun s _ => hliteral (by decide) (.reference s)
  | methodType n => exact (Finds.text n).map fun s _ => hliteral (by decide) (.methodType s)
  | methodHandle kind target => exact (finds_handle ht i).map fun h hh => .handle hh
  | _ => exact .refuseHere _

/-! ## Instructions -/

theorem finds_readWidened (start : Nat) : Finds (readWidened start) Instruction.IsSound := by
  have hvariable (op : Opcode) (code : UInt8) :
      Finds (if op.family = .variable then (do return .variable op (← u2))
        else refuse (.notWidenable code) start : Decoder (Instruction Int)) Instruction.IsSound :=
    Finds.ite (fun hop => Finds.u2.map fun n hn => ⟨hop, isInt_ofNat (by omega)⟩)
      fun _ => .refuse _ _
  refine Finds.byte.any_bind fun code => ?_
  cases Opcode.ofCode? code.toNat with
  | none => exact .refuse _ _
  | some op =>
    by_cases hop : op = .iinc
    · subst hop
      refine Finds.u2_bind fun slot hslot => ?_
      exact (Finds.signed 1).map fun n hn => ⟨isInt_ofNat (by omega), by omega, by omega⟩
    · have hmatch := hvariable op code
      cases op <;> first | exact absurd rfl hop | exact hmatch

theorem finds_readTableSwitch (offset start : Nat) : Finds (readTableSwitch offset start) fun i =>
    ∃ low high otherwise targets, i = .tableSwitch low high otherwise targets ∧ i.IsSound := by
  refine (Finds.skip _).any_bind fun _ => ?_
  refine (Finds.signed 3).bind fun otherwise _ => ?_
  refine (Finds.signed 3).bind fun low hlow => ?_
  refine (Finds.signed 3).bind fun high hhigh => ?_
  refine Finds.ite (fun _ => (Finds.refuse _ _).bind fun _ h => (h : False).elim) fun _ => ?_
  refine Finds.map (Q := fun _ => True) ?_ fun targets _ =>
    ⟨low, high, _, targets, rfl, ⟨by omega, by omega⟩, by omega, by omega⟩
  exact (Finds.times (Q := fun _ => True) ((Finds.signed 3).map fun _ _ => trivial) _).imp
    fun _ _ => trivial

theorem finds_readLookupSwitch (offset start : Nat) : Finds (readLookupSwitch offset start) fun i =>
    ∃ otherwise keys targets, i = .lookupSwitch otherwise keys targets ∧ i.IsSound := by
  refine (Finds.skip _).any_bind fun _ => ?_
  refine (Finds.signed 3).bind fun otherwise _ => ?_
  refine (Finds.signed 3).bind fun count _ => ?_
  refine Finds.ite (fun _ => (Finds.refuse _ _).bind fun _ h => (h : False).elim) fun _ => ?_
  have hpair : Finds (do
      let key ← signed 4
      return (key, (offset : Int) + (← signed 4))) fun p => IsInt p.1 := by
    refine (Finds.signed 3).bind fun key hkey => ?_
    exact (Finds.signed 3).map fun n _ => ⟨by dsimp only; omega, by dsimp only; omega⟩
  refine (Finds.times hpair _).map fun pairs hpairs => ⟨_, _, _, rfl, by simp, ?_⟩
  intro key hkey
  obtain ⟨p, hp, rfl⟩ := List.mem_map.1 hkey
  exact hpairs.2 p hp

theorem finds_readCallSite (ht : t.IsReadable) (start : Nat) :
    Finds (readCallSite t start) Instruction.IsSound := by
  refine Finds.u2_bind fun i _ => ?_
  refine (Finds.entry i).bind fun e _ => ?_
  cases e with
  | invokeDynamic bootstrap member =>
    refine (Finds.skip 2).any_bind fun _ => ?_
    refine (finds_nameAndType member).any_bind fun ⟨n, d⟩ => ?_
    cases t.bootstrap[bootstrap]? with
    | none => exact .refuse _ _
    | some method =>
      refine (Finds.text n).any_bind fun name => ?_
      refine (Finds.text d).any_bind fun descriptor => ?_
      refine (finds_handle ht method.handle).bind fun handle hhandle => ?_
      refine Finds.map (Finds.mapM fun i _ => finds_constant ht i) fun arguments harguments => ?_
      refine ⟨hhandle, fun a ha => ?_⟩
      obtain ⟨i, -, h⟩ := Result.exists_of_mem_right harguments ha
      exact h
  | _ => exact .wrongTag _ _ _

/-- The operands of a code are those of its family. -/
theorem finds_readOperands (ht : t.IsReadable) (op : Opcode) (offset start : Nat) :
    Finds (readOperands t op offset start) Instruction.IsSound := by
  unfold readOperands
  cases hfamily : op.family with
  | plain => exact .pure hfamily
  | widening => exact finds_readWidened start
  | immediate =>
    have hsigned (width : Nat) (hwidth : width ≤ 1) : Finds
        (do return Instruction.immediate op (← signed (width + 1)) : Decoder (Instruction Int))
        Instruction.IsSound := by
      refine (Finds.signed width).map fun n hn => ⟨hfamily, ?_⟩
      rcases Nat.le_one_iff_eq_zero_or_eq_one.1 hwidth with rfl | rfl <;>
        exact ⟨by omega, by omega⟩
    have hunsigned : Finds
        (do return Instruction.immediate op (← u1) : Decoder (Instruction Int))
        Instruction.IsSound := Finds.u1.map fun n hn => ⟨hfamily, isInt_ofNat (by omega)⟩
    cases op with
    | bipush => exact hsigned 0 (by decide)
    | sipush => exact hsigned 1 (by decide)
    | _ => exact hunsigned
  | constant =>
    have hconstant (i : Nat) : Finds (do return .constant op (← t.constant i).2)
        (Instruction.IsSound (τ := Int)) := (finds_constant ht i).map fun _ _ => hfamily
    exact Finds.ite (fun _ => Finds.u1.bind fun i _ => hconstant i)
      fun _ => Finds.u2_bind fun i _ => hconstant i
  | «variable» => exact Finds.u1.map fun n hn => ⟨hfamily, isInt_ofNat (by omega)⟩
  | increment =>
    refine Finds.u1.bind fun slot hslot => ?_
    exact (Finds.signed 0).map fun n hn => ⟨isInt_ofNat (by omega), by omega, by omega⟩
  | jump =>
    have hdistance : Finds (signed (if op.isFar then 4 else 2)) fun _ => True := by
      split
      · exact (Finds.signed 3).imp fun _ _ => trivial
      · exact (Finds.signed 1).imp fun _ _ => trivial
    exact hdistance.map fun _ _ => hfamily
  | tableSwitch =>
    refine (finds_readTableSwitch offset start).imp ?_
    rintro _ ⟨low, high, otherwise, targets, rfl, hsound⟩
    exact hsound
  | lookupSwitch =>
    refine (finds_readLookupSwitch offset start).imp ?_
    rintro _ ⟨otherwise, keys, targets, rfl, hsound⟩
    exact hsound
  | field =>
    refine Finds.u2_bind fun i _ => ?_
    exact (finds_member i).map fun _ _ => hfamily
  | method =>
    refine Finds.u2_bind fun i _ => ?_
    refine (finds_member i).any_bind fun m => ?_
    refine Finds.ite (fun _ => ?_) fun _ => .pure hfamily
    exact (Finds.skip 2).any_bind fun _ => .pure hfamily
  | callSite => exact finds_readCallSite ht start
  | type =>
    refine Finds.u2_bind fun i _ => ?_
    exact (finds_className i).map fun _ _ => hfamily
  | multiArray =>
    refine Finds.u2_bind fun i _ => ?_
    refine (finds_className i).any_bind fun descriptor => ?_
    exact Finds.u1.map fun n hn => isInt_ofNat (by omega)

theorem finds_readInstruction (ht : t.IsReadable) (offset : Nat) :
    Finds (readInstruction t offset) Instruction.IsSound := by
  refine Finds.position_bind fun start => ?_
  refine Finds.byte.any_bind fun code => ?_
  cases Opcode.ofCode? code.toNat with
  | some op => exact finds_readOperands ht op offset start
  | none => exact .refuse _ _

/-- An instruction takes at least its code. -/
theorem position_lt_of_readInstruction (ht : t.IsReadable) {offset : Nat} {c c' : Cursor}
    {i : Instruction Int} (h : readInstruction t offset c = .ok (i, c')) : c.position < c'.position := by
  obtain ⟨start, c₁, hstart, h⟩ := bind_eq_ok_iff.1 h
  cases hstart
  obtain ⟨code, c₂, hcode, h⟩ := bind_eq_ok_iff.1 h
  have hstep : c₂.position = c.position + 1 := by
    obtain ⟨n, c₃, hn, hcode⟩ := bind_eq_ok_iff.1 hcode
    obtain ⟨b, c₄, hb, hn⟩ := bind_eq_ok_iff.1 hn
    cases hcode
    cases hn
    obtain ⟨_, c₅, hneed, hb⟩ := bind_eq_ok_iff.1 hb
    cases hb
    have hneed : (if Bytes.hasAtLeast 1 c.rest = true then Pure.pure PUnit.unit
      else refuse (.unexpectedEnd 1) c.position : Decoder PUnit) c = .ok ((), c₅) := hneed
    split at hneed
    · cases hneed
      rfl
    · cases hneed
  have hle : c₂.position ≤ c'.position := by
    cases hop : Opcode.ofCode? code.toNat with
    | some op =>
      rw [hop] at h
      exact ((finds_readOperands ht op offset c.position).of_eq_ok h).1
    | none =>
      rw [hop] at h
      cases h
  omega

theorem finds_all_readOperations {Q : Instruction Int → Prop}
    (h : ∀ offset, Finds (readInstruction t offset) Q) (length : Nat) :
    Finds (readOperations t length) fun code => ∀ p ∈ code, Q p.2 := by
  have honto (codeStart fuel : Nat) (acc : List (Nat × Instruction Int)) (hacc : ∀ p ∈ acc, Q p.2) :
      Finds (readOperationsOnto t codeStart length fuel acc) fun code => ∀ p ∈ code, Q p.2 := by
    induction fuel generalizing acc with
    | zero => exact .pure (by simpa using hacc)
    | succ fuel ih =>
      refine Finds.position_bind fun here => ?_
      refine Finds.ite (fun _ => ?_) fun _ => .pure (by simpa using hacc)
      exact (h _).bind fun i hi => ih _ (List.forall_mem_cons.2 ⟨hi, hacc⟩)
  refine Finds.position_bind fun codeStart => ?_
  refine (honto codeStart length [] (by simp)).bind fun code hcode => ?_
  refine Finds.position_bind fun here => ?_
  refine Finds.checkHere_bind fun _ => ?_
  refine Finds.any_bind ?_ fun _ => .pure hcode
  refine (Finds.forM (P := fun _ => True) fun p _ => ?_).imp fun _ _ => trivial
  exact (Finds.forM (P := fun _ => True) fun target _ =>
    (Finds.check _ _).imp fun _ _ => trivial).imp fun _ _ => trivial

/-- Instructions in order of their offsets, all of them within the code. -/
structure InOrder (length : Nat) (code : List (Nat × Instruction Int)) : Prop where
  increasing : (code.map Prod.fst).Pairwise (· < ·)
  inside : ∀ p ∈ code, p.1 < length

/-- Offsets grow from one instruction to the next and stay below the length of the code, since each
instruction takes at least its code byte. The induction is on the fuel, with what has been read
before in reverse. -/
theorem inOrder_of_readOperationsOnto (ht : t.IsReadable) {codeStart length fuel : Nat}
    {acc code : List (Nat × Instruction Int)} {c c' : Cursor} (hacc : InOrder length acc.reverse)
    (hstart : codeStart ≤ c.position) (hbefore : ∀ p ∈ acc, p.1 < c.position - codeStart)
    (h : readOperationsOnto t codeStart length fuel acc c = .ok (code, c')) : InOrder length code := by
  induction fuel generalizing acc c with
  | zero =>
    cases h
    exact hacc
  | succ fuel ih =>
    obtain ⟨here, c₁, hhere, h⟩ := bind_eq_ok_iff.1 h
    cases hhere
    split at h
    · next hlt =>
      obtain ⟨i, c₂, hi, h⟩ := bind_eq_ok_iff.1 h
      have hpast := position_lt_of_readInstruction ht hi
      refine ih ⟨?_, ?_⟩ (by omega) ?_ h
      · rw [List.reverse_cons, List.map_append, List.pairwise_append]
        refine ⟨hacc.increasing, by simp, ?_⟩
        intro offset hoffset last hlast
        obtain ⟨p, hp, rfl⟩ := List.mem_map.1 hoffset
        rw [List.map_singleton, List.mem_singleton] at hlast
        exact hlast ▸ hbefore p (List.mem_reverse.1 hp)
      · intro p hp
        rw [List.reverse_cons, List.mem_append, List.mem_singleton] at hp
        rcases hp with hp | rfl
        · exact hacc.inside p hp
        · exact hlt
      · intro p hp
        rcases List.mem_cons.1 hp with rfl | hp
        · show c.position - codeStart < _
          omega
        · have := hbefore p hp
          omega
    · cases h
      exact hacc

theorem finds_readOperations (ht : t.IsReadable) (length : Nat) :
    Finds (readOperations t length) fun code =>
      (∀ p ∈ code, p.2.IsSound) ∧ InOrder length code := by
  refine (finds_all_readOperations (finds_readInstruction ht) length).and fun c code c' h => ?_
  obtain ⟨codeStart, c₁, hstart, h⟩ := bind_eq_ok_iff.1 h
  cases hstart
  obtain ⟨found, c₂, hfound, h⟩ := bind_eq_ok_iff.1 h
  have horder := inOrder_of_readOperationsOnto ht ⟨by simp, by simp⟩ (Nat.le_refl _) (by simp) hfound
  obtain ⟨here, c₃, hhere, h⟩ := bind_eq_ok_iff.1 h
  dsimp only at h
  split at h
  · obtain ⟨_, c₄, -, h⟩ := bind_eq_ok_iff.1 h
    cases h
    exact horder
  · obtain ⟨_, c₄, hrefuse, h⟩ := bind_eq_ok_iff.1 h
    cases hrefuse

/-! ## Frames -/

/-- A verification type as it stands in the file: a site is given by a code offset. -/
def IsRawType : VerificationType → Prop
  | .irregular _ _ | .uninitialized (.label _) => False
  | _ => True

/-- A frame as it stands in the file. -/
structure IsRawFrame (f : Frame) : Prop where
  kind : f.kind ∈ FrameKind.all
  locals : ∀ v ∈ f.locals, IsRawType v
  stack : ∀ v ∈ f.stack, IsRawType v
  chop : IsInt f.chop

theorem finds_readType : Finds (readType t) IsRawType := by
  refine Finds.position_bind fun start => ?_
  refine Finds.byte.any_bind fun tag => ?_
  split
  · exact .pure trivial
  · exact .pure trivial
  · exact .pure trivial
  · exact .pure trivial
  · exact .pure trivial
  · exact .pure trivial
  · exact .pure trivial
  · refine Finds.u2_bind fun i _ => ?_
    exact (finds_className i).map fun _ _ => trivial
  · exact Finds.u2.map fun _ _ => trivial
  · exact .refuse _ _

theorem finds_readFrame : Finds (readFrame t) fun p => IsRawFrame p.2 := by
  have hchop {n : Nat} (hn : n < 0x100) : IsInt (251 - n : Int) := ⟨by omega, by omega⟩
  have hone {f : VerificationType → Nat × Frame} (hf : ∀ v, IsRawType v → IsRawFrame (f v).2) :
      Finds (do return f (← readType t)) fun p => IsRawFrame p.2 :=
    finds_readType.map hf
  have hplain {kind : FrameKind} (hkind : kind ∈ FrameKind.all) (delta : Nat) {chop : Int}
      (hchop : IsInt chop) : IsRawFrame (delta, (⟨kind, [], [], chop⟩ : Frame)).2 :=
    ⟨hkind, by simp, by simp, hchop⟩
  have hzero : IsInt 0 := ⟨by decide, by decide⟩
  refine Finds.position_bind fun start => ?_
  refine Finds.bind (Q := fun code => code.toNat < 0x100) (Finds.byte.imp fun code _ => code.toNat_lt)
    fun code hcode => ?_
  refine Finds.ite (fun _ => .pure (hplain (by decide) _ hzero)) fun _ => ?_
  refine Finds.ite (fun _ => hone fun v hv => ⟨by dsimp only; decide, by simp, by simpa using hv, hzero⟩)
    fun _ => ?_
  refine Finds.ite (fun _ => .refuse _ _) fun _ => ?_
  refine Finds.u2_bind fun delta _ => ?_
  refine Finds.ite (fun _ => hone fun v hv => ⟨by dsimp only; decide, by simp, by simpa using hv, hzero⟩)
    fun _ => ?_
  refine Finds.ite (fun _ => .pure (hplain (by decide) _ (hchop hcode))) fun _ => ?_
  refine Finds.ite (fun _ => .pure (hplain (by decide) _ hzero)) fun _ => ?_
  refine Finds.ite (fun _ => ?_) fun _ => ?_
  · exact (Finds.times finds_readType _).map fun locals hlocals =>
      ⟨by dsimp only; decide, hlocals.2, by simp, hzero⟩
  · refine (Finds.all_listOf finds_readType).bind fun locals hlocals => ?_
    exact (Finds.all_listOf finds_readType).map fun stack hstack =>
      ⟨by dsimp only; decide, hlocals, hstack, hzero⟩

theorem mem_placeFrames {f : RawFrame} {frames : List (Nat × Frame)} {next : Nat}
    {acc : List RawFrame} (h : f ∈ placeFrames next frames acc) :
    f ∈ acc ∨ ∃ p ∈ frames, f.frame = p.2 := by
  induction frames generalizing next acc with
  | nil => exact .inl (List.mem_reverse.1 h)
  | cons p frames ih =>
    rcases ih h with hacc | ⟨q, hq, heq⟩
    · rcases List.mem_cons.1 hacc with rfl | hacc
      · exact .inr ⟨p, by simp, rfl⟩
      · exact .inl hacc
    · exact .inr ⟨q, by simp [hq], heq⟩

theorem finds_readStackMap : Finds (readStackMap t) fun frames => ∀ f ∈ frames, IsRawFrame f.frame := by
  refine (Finds.all_listOf finds_readFrame).map fun frames hframes f hf => ?_
  rcases mem_placeFrames hf with hacc | ⟨p, hp, heq⟩
  · cases hacc
  · exact heq ▸ hframes p hp

/-! ## Annotations -/

theorem finds_readNamed {value : Decoder ElementValue} (h : Finds value fun _ => True) :
    Finds (readNamed t value) fun _ => True := by
  refine (Finds.listOf (Q := fun _ => True) ?_).imp fun _ _ => trivial
  refine Finds.text_bind fun name => ?_
  exact h.map fun _ _ => trivial

theorem finds_readElementWith (ht : t.IsReadable) (visible : Bool) (fuel : Nat) :
    Finds (readElementWith t visible fuel) fun _ => True := by
  induction fuel with
  | zero => exact .refuseHere _
  | succ fuel ih =>
    have htext (tag : ElementTag) : Finds
        (do return ElementValue.scalar tag (.text (← t.utf8 (← u2)))) fun _ => True :=
      Finds.text_bind fun _ => .pure trivial
    refine Finds.position_bind fun start => ?_
    refine Finds.byte.any_bind fun code => ?_
    split
    · exact htext .text
    · exact htext .type
    · refine Finds.u2_bind fun i _ => ?_
      exact (finds_constant ht i).map fun _ _ => trivial
    · refine Finds.ite (fun _ => ?_) fun _ => Finds.ite (fun _ => ?_) fun _ =>
        Finds.ite (fun _ => ?_) fun _ => .refuse _ _
      · exact Finds.text_bind fun _ => Finds.text_bind fun _ => .pure trivial
      · refine Finds.text_bind fun descriptor => ?_
        exact (finds_readNamed ih).map fun _ _ => trivial
      · exact (Finds.listOf ih).map fun _ _ => trivial

theorem finds_readElement (ht : t.IsReadable) (visible : Bool) :
    Finds (readElement t visible) fun _ => True :=
  Finds.any_bind (Finds.get_bind fun _ => .pure trivial) fun fuel => finds_readElementWith ht visible fuel

theorem finds_readAnnotationUses (ht : t.IsReadable) (visible : Bool) :
    Finds (readAnnotationUses t visible) fun _ => True := by
  refine Finds.any_bind (Finds.get_bind fun _ => .pure trivial) fun fuel => ?_
  refine (Finds.listOf (Q := fun _ => True) ?_).imp fun _ _ => trivial
  refine Finds.text_bind fun descriptor => ?_
  exact (finds_readNamed (finds_readElementWith ht visible fuel)).map fun _ _ => trivial

end ClassTree.Decoding
