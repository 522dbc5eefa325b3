/-
# ClassTree.Proofs.Decoding.Total — every byte string is a class or malformed

Whatever the bytes are, reading them as a class file gives a class or reports that they are
malformed: no lookup fails by surprise, and no other failure comes out. A class that is given is
sound.
-/
import ClassTree.Decoding.ClassFile
import ClassTree.Proofs.Decoding.Closed
import ClassTree.Proofs.Descriptor

namespace ClassTree.Decoding

open Decoder

variable {t : Table}

/-! ## Code -/

theorem finds_readLine : Finds readLine RawLine.IsSound :=
  Finds.u2_bind fun _ _ => Finds.u2.map fun _ hline => hline

/-- An entry of a table of local variables. -/
theorem finds_readVariable : Finds (readVariable t) fun v => v.slot < 0x10000 := by
  refine Finds.u2_bind fun start _ => ?_
  refine Finds.u2_bind fun length _ => ?_
  refine Finds.u2_bind fun nameIndex _ => ?_
  refine Finds.u2_bind fun descriptorIndex _ => ?_
  refine Finds.u2_bind fun slot hslot => ?_
  refine (Finds.text nameIndex).any_bind fun name => ?_
  exact (Finds.text descriptorIndex).map fun _ _ => hslot

theorem finds_readHandler : Finds (readHandler t) fun _ => True := by
  refine Finds.u2_bind fun start _ => ?_
  refine Finds.u2_bind fun stop _ => ?_
  refine Finds.u2_bind fun target _ => ?_
  refine Finds.u2_bind fun i _ => ?_
  exact (finds_className i).map fun _ _ => trivial

/-- Signatures that have been put in place are among those that were put. -/
theorem mem_foldl_putSignature {v : RawVariable} {more signatures : List RawVariable}
    (hv : v ∈ more.foldl putSignature signatures) : v ∈ signatures ∨ v ∈ more := by
  induction more generalizing signatures with
  | nil => exact .inl hv
  | cons w more ih =>
    rcases ih hv with hmem | hmem
    · unfold putSignature at hmem
      split at hmem
      · obtain ⟨u, hu, heq⟩ := List.mem_map.1 hmem
        split at heq
        · exact .inr (by simp [heq])
        · exact .inl (heq ▸ hu)
      · rcases List.mem_append.1 hmem with hmem | hmem
        · exact .inl hmem
        · exact .inr (by simp [List.mem_singleton.1 hmem])
    · exact .inr (List.mem_cons_of_mem w hmem)

/-- The tables of a code attribute. -/
structure CodeTables.IsSound (tables : CodeTables) : Prop where
  lines : ∀ table ∈ tables.lines, ∀ l ∈ table, l.IsSound
  described : ∀ v ∈ tables.described, v.slot < 0x10000
  signatures : ∀ v ∈ tables.signatures, v.slot < 0x10000
  frames : ∀ f ∈ tables.frames, IsRawFrame f.frame

theorem finds_readCodeAttribute (name : Text) (length : Nat) (tables : CodeTables)
    (h : tables.IsSound) : Finds (readCodeAttribute t name length tables) CodeTables.IsSound := by
  refine Finds.ite (fun _ => ?_) fun _ => Finds.ite (fun _ => ?_) fun _ =>
    Finds.ite (fun _ => ?_) fun _ => Finds.ite (fun _ => ?_) fun _ => ?_
  · refine (Finds.all_listOf finds_readLine).map fun lines hlines =>
      ⟨?_, h.described, h.signatures, h.frames⟩
    intro table htable
    rcases List.mem_append.1 htable with htable | htable
    · exact h.lines table htable
    · exact List.mem_singleton.1 htable ▸ hlines
  · refine (Finds.all_listOf finds_readVariable).map fun more hmore =>
      ⟨h.lines, ?_, h.signatures, h.frames⟩
    intro v hv
    rcases List.mem_append.1 hv with hv | hv
    · exact h.described v hv
    · exact hmore v hv
  · refine (Finds.all_listOf finds_readVariable).map fun more hmore =>
      ⟨h.lines, h.described, ?_, h.frames⟩
    intro v hv
    rcases mem_foldl_putSignature hv with hv | hv
    · exact h.signatures v hv
    · exact hmore v hv
  · exact finds_readStackMap.map fun frames hframes => ⟨h.lines, h.described, h.signatures, hframes⟩
  · exact (Finds.bytes length).map fun _ _ => ⟨h.lines, h.described, h.signatures, h.frames⟩

theorem finds_readRawCode (ht : t.IsReadable) : Finds (readRawCode t) RawCode.IsSound := by
  refine Finds.u2_bind fun stack hstack => ?_
  refine Finds.u2_bind fun locals hlocals => ?_
  refine Finds.u4.bind fun length _ => ?_
  refine Finds.get_bind fun code => ?_
  refine (Finds.need length).any_bind fun _ => ?_
  refine (Finds.skip length).any_bind fun _ => ?_
  refine (Finds.listOf finds_readHandler).bind fun handlers _ => ?_
  have hempty : CodeTables.IsSound {} := ⟨by simp, by simp, by simp, by simp⟩
  refine (Finds.attributes hempty finds_readCodeAttribute).bind fun tables htables => ?_
  refine ((finds_readOperations ht length).elsewhere code).map fun instructions hcode => ?_
  exact ⟨⟨isInt_ofNat (by omega), isInt_ofNat (by omega)⟩, hcode.1, hcode.2, htables.lines,
    htables.described, htables.signatures, htables.frames⟩

theorem finds_readCode (ht : t.IsReadable) (place : Text) :
    Finds (readCode t { place }) Code.IsSound := by
  refine (finds_readRawCode ht).bind fun r hr => ?_
  refine (r.finds_assemble place).imp ?_
  rintro code ⟨seen, l, h⟩
  exact h.isSound hr

/-! ## Fields -/

/-- An attribute of a field keeps the flags. -/
theorem finds_readFieldAttribute (ht : t.IsReadable) (name : Text) (length : Nat) (f : Field)
    (hf : IsInt f.access) : Finds (readFieldAttribute t name length f) fun f => IsInt f.access := by
  refine Finds.ite (fun _ => ?_) fun _ => Finds.ite (fun _ => ?_) fun _ =>
    Finds.ite (fun _ => ?_) fun _ => Finds.ite (fun _ => ?_) fun _ => ?_
  · exact Finds.u2_bind fun i _ => (finds_constant ht i).map fun _ _ => hf
  · exact Finds.text_bind fun _ => .pure hf
  · exact (finds_readAnnotationUses ht true).map fun _ _ => hf
  · exact (finds_readAnnotationUses ht false).map fun _ _ => hf
  · exact (Finds.bytes length).map fun _ _ => hf

theorem finds_readField (ht : t.IsReadable) : Finds (readField t) fun f => IsInt f.access := by
  refine Finds.u2_bind fun access haccess => ?_
  refine Finds.text_bind fun name => ?_
  refine Finds.text_bind fun descriptor => ?_
  exact Finds.attributes (isInt_ofNat (by omega)) (finds_readFieldAttribute ht)

/-! ## Methods -/

theorem finds_readParameterCount (name : Text) (arity : Nat) :
    Finds (readParameterCount name arity) fun n => n < 0x100 := by
  refine Finds.position_bind fun start => ?_
  refine Finds.u1.bind fun count hcount => ?_
  refine Finds.ite (fun _ => ?_) fun _ => .pure hcount
  exact (Finds.refuse _ _).bind fun _ h => (h : False).elim

/-- Parameters that are read on for stay as they are in some respect. -/
theorem finds_readParametersOnto {P : Parameter → Prop} {read : Parameter → Decoder Parameter}
    (hread : ∀ p, P p → Finds (read p) P) {ps acc : List Parameter} (hps : ∀ p ∈ ps, P p)
    (hacc : ∀ p ∈ acc, P p) : Finds (readParametersOnto read ps acc) fun ps => ∀ p ∈ ps, P p := by
  induction ps generalizing acc with
  | nil => exact .pure (by simpa using hacc)
  | cons p ps ih =>
    refine (hread p (hps p (by simp))).bind fun q hq => ?_
    refine ih (fun p hp => hps p (by simp [hp])) fun p hp => ?_
    rcases List.mem_cons.1 hp with rfl | hp
    · exact hq
    · exact hacc p hp

theorem finds_readParameterAnnotations (ht : t.IsReadable) (visible : Bool) (m : Method)
    (hm : m.IsSound) : Finds (readParameterAnnotations t visible m) Method.IsSound := by
  refine (finds_readParameterCount _ _).bind fun count hcount => ?_
  have hannotate (p : Parameter) (hp : p.IsSound) : Finds (do
      return { p with annotations := p.annotations ++ (← readAnnotationUses t visible) })
      Parameter.IsSound :=
    (finds_readAnnotationUses ht visible).map fun _ _ => ⟨hp.index, hp.access⟩
  refine (finds_readParametersOnto hannotate (fun p hp => hm.parameters p (List.mem_of_mem_drop hp))
    (by simp)).bind fun annotated hannotated => ?_
  have hparameters : ∀ p ∈ m.parameters.take (m.parameters.length - count) ++ annotated, p.IsSound := by
    intro p hp
    rcases List.mem_append.1 hp with hp | hp
    · exact hm.parameters p (List.mem_of_mem_take hp)
    · exact hannotated p hp
  have hint : IsInt count := isInt_ofNat (by omega)
  refine Finds.ite (fun _ => ?_) fun _ => Finds.ite (fun _ => ?_) fun _ => ?_
  · exact .pure { hm with parameters := hparameters }
  · exact .pure { hm with
      parameters := hparameters
      counts := ⟨by simpa using hint, hm.counts.2.1, hm.counts.2.2⟩ }
  · exact .pure { hm with
      parameters := hparameters
      counts := ⟨hm.counts.1, by simpa using hint, hm.counts.2.2⟩ }

theorem finds_readMethodParameters (m : Method) (hm : m.IsSound) :
    Finds (readMethodParameters t m) Method.IsSound := by
  refine (finds_readParameterCount _ _).bind fun count hcount => ?_
  have hname (p : Parameter) (hp : p.IsSound) : Finds (do
      let name ← t.utf8? (← u2)
      return { p with name, access := ← u2 }) Parameter.IsSound := by
    refine Finds.u2_bind fun i _ => ?_
    refine (finds_utf8? i).any_bind fun name => ?_
    exact Finds.u2.map fun access haccess => ⟨hp.index, isInt_ofNat (by omega)⟩
  refine (finds_readParametersOnto hname (fun p hp => hm.parameters p (List.mem_of_mem_take hp))
    (by simp)).bind fun named hnamed => ?_
  have hparameters : ∀ p ∈ named ++ m.parameters.drop count, p.IsSound := by
    intro p hp
    rcases List.mem_append.1 hp with hp | hp
    · exact hnamed p hp
    · exact hm.parameters p (List.mem_of_mem_drop hp)
  have hint : IsInt count := isInt_ofNat (by omega)
  refine Finds.ite (fun _ => ?_) fun _ => ?_
  · exact .pure { hm with parameters := hparameters }
  · exact .pure { hm with
      parameters := hparameters
      counts := ⟨hm.counts.1, hm.counts.2.1, by simpa using hint⟩ }

/-- The code of a method becomes part of it. -/
theorem finds_readMethodCode (ht : t.IsReadable) (m : Method) (hm : m.IsSound) :
    Finds (readMethodCode t m) Method.IsSound :=
  (finds_readCode ht _).map fun code hcode => { hm with
    maxima := by simpa using hcode.maxima
    items := hcode.items
    locals := hcode.locals
    closed := hcode.closed }

/-- An attribute of a method keeps it sound. -/
theorem finds_readMethodAttribute (ht : t.IsReadable) (name : Text) (length : Nat) (m : Method)
    (h : m.IsSound) : Finds (readMethodAttribute t name length m) Method.IsSound := by
  -- the order of the attributes is no part of what is sound
  have hm : Method.IsSound { m with
      layout := { m.layout with attributeOrder := m.layout.attributeOrder ++ [name] } } := { h with }
  unfold readMethodAttribute
  generalize { m with
    layout := { m.layout with attributeOrder := m.layout.attributeOrder ++ [name] } } = m' at hm ⊢
  refine Finds.ite (fun _ => finds_readMethodCode ht m' hm) fun _ => Finds.ite (fun _ => ?_) fun _ =>
    Finds.ite (fun _ => ?_) fun _ => Finds.ite (fun _ => ?_) fun _ => Finds.ite (fun _ => ?_) fun _ =>
    Finds.ite (fun _ => finds_readParameterAnnotations ht true m' hm) fun _ =>
    Finds.ite (fun _ => finds_readParameterAnnotations ht false m' hm) fun _ =>
    Finds.ite (fun _ => ?_) fun _ => Finds.ite (fun _ => finds_readMethodParameters m' hm) fun _ => ?_
  · exact (Finds.listOf (Finds.u2_bind fun i _ => finds_className i)).map fun _ _ => { hm with }
  · exact Finds.text_bind fun _ => .pure { hm with }
  · exact (finds_readAnnotationUses ht true).map fun _ _ => { hm with }
  · exact (finds_readAnnotationUses ht false).map fun _ _ => { hm with }
  · exact (finds_readElement ht true).map fun _ _ => { hm with }
  · exact (Finds.bytes length).map fun _ _ => { hm with }

/-- The parameters of a descriptor that fits into a class file. -/
theorem isSound_of_mem_parametersOf {types : List Text} (h : types.length < 0x10000) :
    ∀ p ∈ parametersOf types, p.IsSound := by
  intro p hp
  obtain ⟨⟨type, i⟩, hi, rfl⟩ := List.mem_map.1 hp
  have hlt : i < types.length := by
    have := (List.mem_zipIdx hi).2.1
    omega
  have hbound : 10 ^ 5 ≤ 10 ^ Text.maxNumeralLength := Nat.pow_le_pow_right (by decide) (by decide)
  have hnat : i < 10 ^ Text.maxNumeralLength := by omega
  exact ⟨⟨Int.natCast_nonneg i, hnat⟩, isInt_ofNat (by decide)⟩

theorem finds_readMethod (ht : t.IsReadable) : Finds (readMethod t) Method.IsSound := by
  refine Finds.u2_bind fun access haccess => ?_
  refine Finds.text_bind fun name => ?_
  refine Finds.u2_bind fun i _ => ?_
  refine (Finds.utf8 i).bind fun descriptor hdescriptor => ?_
  have hshort : descriptor.length < 0x10000 :=
    (ModifiedUtf8.length_le_length_encode _).trans_lt (ht _ hdescriptor).isShort
  cases harguments : Descriptor.arguments descriptor with
  | error e =>
    rcases Descriptor.arguments_error harguments with rfl | rfl
    · exact .refuseHere _
    · exact .refuseHere _
  | ok types =>
    have hle := Descriptor.length_le_of_arguments harguments
    refine Finds.attributes ?_ (finds_readMethodAttribute ht)
    exact {
      access := isInt_ofNat (by omega)
      parameters := isSound_of_mem_parametersOf (by omega)
      maxima := by simp
      items := by simp
      locals := by simp
      closed := ⟨.nil, by simp, by simp, by simp⟩
      counts := ⟨by simp, by simp, by simp⟩ }

/-! ## Classes -/

/-- Magic number and version; the version is one of those that are known. -/
theorem finds_readVersion : Finds readVersion fun v => IsInt v.1 ∧ IsInt v.2 := by
  refine Finds.u4.bind fun found _ => ?_
  refine Finds.check_bind fun _ => ?_
  refine Finds.u2_bind fun minor hminor => ?_
  refine Finds.u2_bind fun major hmajor => ?_
  refine Finds.check_bind fun _ => ?_
  exact .pure ⟨isInt_ofNat (by omega), isInt_ofNat (by omega)⟩

/-- A bootstrap table stands behind everything else; the place after its length is no earlier one.
-/
theorem finds_scanBootstrap : Finds (scanBootstrap t) fun found => ∀ b ∈ found, b.IsFit := by
  have hskip : Finds (skipAttributes t) fun _ => True :=
    Finds.attributes trivial fun _ length _ _ => Finds.skip length
  have hmembers : Finds (skipMembers t) fun _ => True :=
    (Finds.listOf ((Finds.skip 6).any_bind fun _ => hskip)).bind fun _ _ => .pure trivial
  refine (Finds.skip 6).any_bind fun _ => ?_
  refine Finds.u2_bind fun interfaces _ => ?_
  refine (Finds.skip _).any_bind fun _ => ?_
  refine hmembers.any_bind fun _ => ?_
  refine hmembers.any_bind fun _ => ?_
  refine (Finds.attributes (S := fun found => ∀ table ∈ found, ∀ b ∈ table, b.IsFit) (by simp)
    fun name length found hfound => ?_).map fun found hfound b hb => ?_
  · intro c
    have hle : c.position ≤ (c.skip length).position := Nat.le_add_right _ _
    by_cases hname : name = AttributeName.bootstrapMethods
    · have hrun := (Finds.all_listOf finds_readBootstrap).detour
        (R := fun found => ∀ table ∈ found, ∀ b ∈ table, b.IsFit) (f := fun table => table :: found)
        (fun _ htable => List.forall_mem_cons.2 ⟨htable, hfound⟩) c hle
      simp only [hname, if_true]
      exact hrun
    · refine .inl ⟨[] :: found, c.skip length, ?_, hle, List.forall_mem_cons.2 ⟨nofun, hfound⟩⟩
      simp only [hname, if_false]
      rfl
  · obtain ⟨table, htable, hb⟩ := List.mem_flatten.1 hb
    exact hfound table (List.mem_reverse.1 htable) b hb

theorem finds_readTable : Finds readTable Table.IsReadable := by
  refine Pool.finds_readPool.bind fun entries hentries => ?_
  refine Finds.get_bind fun c => ?_
  exact (finds_scanBootstrap.elsewhere c).map fun _ _ => hentries

theorem finds_readClassName : Finds (readClassName t) fun _ => True := by
  refine Finds.position_bind fun start => ?_
  refine Finds.u2_bind fun i _ => ?_
  refine (finds_className i).any_bind fun name => ?_
  cases name with
  | none => exact .refuse _ _
  | some name =>
    cases name with
    | nil => exact .refuse _ _
    | cons c rest => exact .pure trivial

theorem finds_readInnerClass : Finds (readInnerClass t) fun i => IsInt i.access := by
  refine Finds.u2_bind fun innerIndex _ => ?_
  refine Finds.u2_bind fun outerIndex _ => ?_
  refine Finds.u2_bind fun nameIndex _ => ?_
  refine Finds.u2_bind fun access haccess => ?_
  refine (finds_className innerIndex).any_bind fun inner => ?_
  refine (finds_className outerIndex).any_bind fun outer => ?_
  exact (finds_utf8? nameIndex).map fun _ _ => isInt_ofNat (by omega)

theorem finds_readEnclosingMethod : Finds (readEnclosingMethod t) fun _ => True := by
  refine Finds.u2_bind fun ownerIndex _ => ?_
  refine (finds_className ownerIndex).any_bind fun owner => ?_
  refine Finds.u2_bind fun i _ => ?_
  refine Finds.ite (fun _ => .pure trivial) fun _ => ?_
  refine (finds_nameAndType i).any_bind fun ⟨n, d⟩ => ?_
  refine (Finds.text n).any_bind fun name => ?_
  exact (Finds.text d).map fun _ _ => trivial

/-- An attribute of a class keeps it sound. -/
theorem finds_readClassAttribute (ht : t.IsReadable) (name : Text) (length : Nat) (c : Class)
    (h : c.IsSound) : Finds (readClassAttribute t name length c) Class.IsSound := by
  have hc : Class.IsSound { c with
      layout := { c.layout with attributeOrder := c.layout.attributeOrder ++ [name] } } := { h with }
  unfold readClassAttribute
  generalize { c with
    layout := { c.layout with attributeOrder := c.layout.attributeOrder ++ [name] } } = c' at hc ⊢
  refine Finds.ite (fun _ => ?_) fun _ => Finds.ite (fun _ => ?_) fun _ =>
    Finds.ite (fun _ => ?_) fun _ => Finds.ite (fun _ => ?_) fun _ => Finds.ite (fun _ => ?_) fun _ =>
    Finds.ite (fun _ => ?_) fun _ => Finds.ite (fun _ => ?_) fun _ => ?_
  · exact Finds.text_bind fun _ => .pure { hc with }
  · exact Finds.text_bind fun _ => .pure { hc with }
  · exact (finds_readAnnotationUses ht true).map fun _ _ => { hc with }
  · exact (finds_readAnnotationUses ht false).map fun _ _ => { hc with }
  · refine (Finds.all_listOf finds_readInnerClass).map fun more hmore => { hc with innerClasses := ?_ }
    intro i hi
    rcases List.mem_append.1 hi with hi | hi
    · exact hc.innerClasses i hi
    · exact hmore i hi
  · exact finds_readEnclosingMethod.map fun _ _ => { hc with }
  · exact (Finds.skip length).any_bind fun _ => .pure hc
  · exact (Finds.bytes length).map fun _ _ => { hc with }

theorem finds_readClassFile : Finds readClassFile Class.IsSound := by
  refine finds_readVersion.bind fun ⟨major, minor⟩ hversion => ?_
  refine finds_readTable.bind fun t ht => ?_
  refine Finds.u2_bind fun access haccess => ?_
  refine finds_readClassName.any_bind fun name => ?_
  refine Finds.u2_bind fun i _ => ?_
  refine (finds_className i).any_bind fun super => ?_
  refine (Finds.listOf (Finds.u2_bind fun i _ => finds_className i)).bind fun interfaces _ => ?_
  refine (Finds.all_listOf (finds_readField ht)).bind fun fields hfields => ?_
  refine (Finds.all_listOf (finds_readMethod ht)).bind fun methods hmethods => ?_
  refine (Finds.attributes (S := Class.IsSound) ?_ (finds_readClassAttribute ht)).bind fun c hc => ?_
  · exact {
      access := isInt_ofNat (by omega)
      version := hversion
      fields := hfields
      methods := hmethods
      innerClasses := by simp }
  · refine Finds.get_bind fun here => ?_
    exact Finds.checkHere_bind fun _ => .pure hc

end ClassTree.Decoding

namespace ClassTree

namespace Class

/-- Reading gives a sound class or reports malformed bytes. -/
theorem isSound_or_malformed_of_ofBytes (bytes : Bytes) :
    (∃ c, ofBytes bytes = .ok c ∧ c.IsSound) ∨
      ∃ cause offset, ofBytes bytes = .error (.malformed cause offset) := by
  unfold ofBytes StateT.run
  rcases Decoding.finds_readClassFile ⟨0, bytes⟩ with ⟨c, c', hok, -, hc⟩ | ⟨cause, offset, herror⟩
  · rw [hok]
    exact .inl ⟨c, rfl, hc⟩
  · rw [herror]
    exact .inr ⟨cause, offset, rfl⟩

/-- Every byte string is a class file or malformed: reading gives a class, or it fails with the one
error that says so and with an offset. There is no hypothesis on the bytes. The decoder itself can
fail in every way that an index, a name or a number can; that none of the others comes up is what
the calculus of `Finds` carries from the entries of the pool to the last attribute. -/
theorem exists_or_malformed_of_ofBytes (bytes : Bytes) :
    (∃ c, ofBytes bytes = .ok c) ∨
      ∃ cause offset, ofBytes bytes = .error (.malformed cause offset) :=
  (isSound_or_malformed_of_ofBytes bytes).imp_left fun ⟨c, hc, _⟩ => ⟨c, hc⟩

/-- A class that has been read is sound. -/
theorem isSound_of_ofBytes {bytes : Bytes} {c : Class} (h : ofBytes bytes = .ok c) : c.IsSound := by
  rcases isSound_or_malformed_of_ofBytes bytes with ⟨c', hok, hc'⟩ | ⟨cause, offset, herror⟩
  · rw [h] at hok
    cases hok
    exact hc'
  · rw [h] at herror
    cases herror

end Class

end ClassTree
