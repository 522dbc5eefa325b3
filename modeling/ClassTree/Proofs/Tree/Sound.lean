/-
# ClassTree.Proofs.Tree.Sound — trees give sound classes

What is read of a tree has literals again: every number has been read in its kind, every instruction
by the operands of its code, and the labels of a method are closed before the method is given.
-/
import ClassTree.Proofs.Literal
import ClassTree.Proofs.Text.Numeral
import ClassTree.Proofs.Tree.Labels
import ClassTree.Tree.ToClass

namespace ClassTree.Tree

open Literal (IsOf IsNamed Kind)

variable {path place name : Text} {n : Node} {at_ : Location}

/-! ## Leaves -/

/-- The constant of a leaf fits the kind of the leaf. -/
theorem isOf_of_constantOf {kinds : List Kind} {v : Constant} (h : constantOf path kinds n = .ok v) :
    ∃ kind ∈ kinds, n.base = some kind.name ∧ IsOf kind v := by
  unfold constantOf at h
  dsimp only at h
  split at h
  · split at h
    · next hany =>
      obtain ⟨kind, hkind, hbase⟩ := List.any_eq_true.1 hany
      have hbase := of_decide_eq_true hbase
      refine ⟨kind, hkind, hbase, ?_⟩
      unfold Node.literal at h
      rw [hbase] at h
      dsimp only at h
      split at h
      · cases h
      · exact Literal.isOf_of_decode h
    · cases h
  · cases h

/-- The integer of a leaf has four bytes. -/
theorem isInt_of_intOf {i : Int} (h : intOf path n = .ok i) : IsInt i := by
  obtain ⟨v, hv, h⟩ := Result.bind_eq_ok_iff.1 h
  obtain ⟨kind, hkind, -, hof⟩ := isOf_of_constantOf hv
  rw [List.mem_singleton] at hkind
  subst hkind
  cases hof with
  | int hn =>
    cases h
    exact hn

/-- An integer that may be missing has four bytes. -/
theorem isInt_of_optional {i? : Option Int} (h : optional (intOf path) n name = .ok i?) :
    ∀ i ∈ i?, IsInt i := by
  unfold optional at h
  split at h
  · obtain ⟨i, hi, h⟩ := Result.bind_eq_ok_iff.1 h
    cases h
    rintro _ ⟨⟩
    exact isInt_of_intOf hi
  · cases h
    exact nofun

/-- An integer that has to be there has four bytes. -/
theorem isInt_of_required {i : Int} (h : required (intOf path) n name place = .ok i) : IsInt i := by
  obtain ⟨p, -, h⟩ := Result.bind_eq_ok_iff.1 h
  exact isInt_of_intOf h

/-! ## Operands -/

/-- The kind of a handle has four bytes. -/
theorem isInt_of_readHandle {h : Handle} (hread : readHandle at_ n = .ok h) : IsInt h.kind := by
  unfold readHandle at hread
  dsimp only at hread
  split at hread
  · obtain ⟨_, -, hread⟩ := Result.bind_eq_ok_iff.1 hread
    obtain ⟨kind, hkind, hread⟩ := Result.bind_eq_ok_iff.1 hread
    obtain ⟨_, -, hread⟩ := Result.bind_eq_ok_iff.1 hread
    obtain ⟨_, -, hread⟩ := Result.bind_eq_ok_iff.1 hread
    obtain ⟨_, -, hread⟩ := Result.bind_eq_ok_iff.1 hread
    obtain ⟨_, -, hread⟩ := Result.bind_eq_ok_iff.1 hread
    obtain ⟨_, -, hread⟩ := Result.bind_eq_ok_iff.1 hread
    obtain ⟨_, -, hread⟩ := Result.bind_eq_ok_iff.1 hread
    obtain ⟨_, -, hread⟩ := Result.bind_eq_ok_iff.1 hread
    obtain ⟨_, -, hread⟩ := Result.bind_eq_ok_iff.1 hread
    cases hread
    exact isInt_of_intOf hkind
  · cases hread

/-- An argument of a call site fits the kind that it is named by. -/
theorem isNamed_of_readArgument {a : Text × Constant} (h : readArgument at_ n = .ok a) :
    IsNamed a.1 a.2 := by
  obtain ⟨v, hv, h⟩ := Result.bind_eq_ok_iff.1 h
  cases h
  unfold readLoaded at hv
  split at hv
  · next hbase =>
    obtain ⟨handle, hhandle, hv⟩ := Result.bind_eq_ok_iff.1 hv
    cases hv
    rw [hbase]
    exact .handle (isInt_of_readHandle hhandle)
  · obtain ⟨kind, hkind, hbase, hof⟩ := isOf_of_constantOf hv
    rw [hbase]
    exact .literal hkind hof

/-- A call site is sound and has no targets. -/
theorem isSound_of_readCallSite {i : Instruction Label} (h : readCallSite at_ n = .ok i) :
    i.IsSound ∧ i.targets = [] := by
  obtain ⟨_, -, h⟩ := Result.bind_eq_ok_iff.1 h
  obtain ⟨arguments, harguments, h⟩ := Result.bind_eq_ok_iff.1 h
  obtain ⟨_, -, h⟩ := Result.bind_eq_ok_iff.1 h
  obtain ⟨_, -, h⟩ := Result.bind_eq_ok_iff.1 h
  obtain ⟨_, -, h⟩ := Result.bind_eq_ok_iff.1 h
  obtain ⟨_, -, h⟩ := Result.bind_eq_ok_iff.1 h
  obtain ⟨_, -, h⟩ := Result.bind_eq_ok_iff.1 h
  obtain ⟨bootstrap, hbootstrap, h⟩ := Result.bind_eq_ok_iff.1 h
  cases h
  refine ⟨⟨isInt_of_readHandle hbootstrap, fun a ha => ?_⟩, rfl⟩
  obtain ⟨_, -, hread⟩ := Result.exists_of_mem_right (Result.mapM_eq_ok_iff.1 harguments) ha
  exact isNamed_of_readArgument hread

/-- An instruction is sound, defines no label and refers to its targets. -/
def IsRead (i : Instruction Label) (definitions references : List Label) : Prop :=
  i.IsSound ∧ definitions = [] ∧ references = i.targets

theorem tracks_mapM_readReference (ns : List Node) :
    Tracks (ns.mapM (readReference at_)) fun ls definitions references =>
      definitions = [] ∧ references = ls := by
  refine (Tracks.mapM (D := fun _ => []) (R := fun l => [l]) (P := fun _ => True) fun m _ =>
    tracks_readReference.imp fun _ _ _ h => ⟨h.1, h.2, trivial⟩).imp ?_
  rintro ls _ _ ⟨rfl, rfl, -⟩
  simp

theorem tracks_readTableSwitch : Tracks (readTableSwitch at_ n) IsRead := by
  refine .lift_bind fun _ _ => tracks_readReference.bind ?_
  rintro otherwise _ _ ⟨rfl, rfl⟩
  refine .lift_bind fun _ _ => (tracks_mapM_readReference _).bind ?_
  rintro targets _ _ ⟨rfl, rfl⟩
  refine .lift_bind fun _ _ => .lift_bind fun low hlow => .lift_bind fun _ _ =>
    .lift_bind fun high hhigh => .pure ⟨⟨isInt_of_intOf hlow, isInt_of_intOf hhigh⟩, rfl, ?_⟩
  simp [Instruction.targets]

theorem tracks_readLookupSwitch : Tracks (readLookupSwitch at_ n) IsRead := by
  have hkeys (ns : List Node) :
      Tracks (ns.mapM fun k => (intOf at_.path k : Labelled Int)) fun keys definitions references =>
        definitions = keys.flatMap (fun _ => []) ∧ references = keys.flatMap (fun _ => []) ∧
          ∀ k ∈ keys, IsInt k :=
    .mapM fun k _ => .lift fun i hi => ⟨rfl, rfl, isInt_of_intOf hi⟩
  refine .lift_bind fun _ _ => tracks_readReference.bind ?_
  rintro otherwise _ _ ⟨rfl, rfl⟩
  refine .lift_bind fun _ _ => (hkeys _).bind ?_
  rintro keys _ _ ⟨rfl, rfl, hkeys⟩
  refine .lift_bind fun _ _ => (tracks_mapM_readReference _).bind ?_
  rintro targets _ _ ⟨rfl, rfl⟩
  split
  · next hlength =>
    refine .pure ⟨⟨hlength, hkeys⟩, by simp, ?_⟩
    simp [Instruction.targets]
  · exact .lift_bind fun _ h => by cases h

theorem tracks_readOperands (op : Opcode) : Tracks (readOperands at_ op n) IsRead := by
  have hint {k : Nat} {i : Int}
      (h : (do intOf at_.path (← n.operand k at_.place) : Result Int) = .ok i) : IsInt i := by
    obtain ⟨_, -, h⟩ := Result.bind_eq_ok_iff.1 h
    exact isInt_of_intOf h
  unfold readOperands
  dsimp only
  cases hop : op.family with
  | plain => exact .pure ⟨hop, rfl, rfl⟩
  | widening => exact .lift fun _ h => by cases h
  | immediate => exact .lift_bind fun i hi => .pure ⟨⟨hop, hint hi⟩, rfl, rfl⟩
  | «variable» => exact .lift_bind fun i hi => .pure ⟨⟨hop, hint hi⟩, rfl, rfl⟩
  | increment =>
    exact .lift_bind fun slot hslot => .lift_bind fun amount hamount =>
      .pure ⟨⟨hint hslot, hint hamount⟩, rfl, rfl⟩
  | constant => exact .lift_bind fun _ _ => .lift_bind fun _ _ => .pure ⟨hop, rfl, rfl⟩
  | type => exact .lift_bind fun _ _ => .lift_bind fun _ _ => .pure ⟨hop, rfl, rfl⟩
  | field =>
    exact .lift_bind fun _ _ => .lift_bind fun _ _ => .lift_bind fun _ _ => .pure ⟨hop, rfl, rfl⟩
  | method =>
    exact .lift_bind fun _ _ => .lift_bind fun _ _ => .lift_bind fun _ _ => .lift_bind fun _ _ =>
      .lift_bind fun _ _ => .pure ⟨hop, rfl, rfl⟩
  | callSite =>
    refine .lift fun i hi => ?_
    obtain ⟨hsound, htargets⟩ := isSound_of_readCallSite hi
    exact ⟨hsound, rfl, htargets.symm⟩
  | jump =>
    refine .lift_bind fun _ _ => tracks_readReference.bind ?_
    rintro l _ _ ⟨rfl, rfl⟩
    exact .pure ⟨hop, rfl, rfl⟩
  | tableSwitch => exact tracks_readTableSwitch
  | lookupSwitch => exact tracks_readLookupSwitch
  | multiArray =>
    exact .lift_bind fun _ _ => .lift_bind fun i hi => .pure ⟨hint hi, rfl, rfl⟩

/-! ## Frames -/

/-- A verification type is sound and refers to its label. -/
theorem tracks_readType : Tracks (readType at_ n) fun v definitions references =>
    definitions = [] ∧ references = v.label?.toList ∧ v.IsSound := by
  unfold readType
  cases hname : n.name.bind fun name => VerificationType.names.idxOf? name with
  | none => exact .lift fun _ h => by cases h
  | some tag =>
    have htag : tag < 9 := by
      obtain ⟨name, -, hindex⟩ := Option.bind_eq_some_iff.1 hname
      exact (List.idxOf?_eq_some_iff.1 hindex).1
    split
    · cases ‹some tag = none›
    · exact .lift_bind fun _ _ => .lift_bind fun _ _ => .pure ⟨rfl, rfl, trivial⟩
    · refine .lift_bind fun _ _ => tracks_readReference.bind ?_
      rintro l _ _ ⟨rfl, rfl⟩
      exact .pure ⟨rfl, rfl, trivial⟩
    · next hne hne' heq =>
      cases heq
      refine .pure ?_
      interval_cases tag <;> simp_all [VerificationType.ofParts, VerificationType.label?,
        VerificationType.IsSound]

/-- A frame is sound and refers to the labels of its types. -/
theorem tracks_readFrame : Tracks (readFrame at_ n) fun f definitions references =>
    definitions = [] ∧ references = f.references ∧ f.IsSound := by
  unfold readFrame
  cases hname : n.name.bind FrameKind.ofName? with
  | none => exact .lift fun _ h => by cases h
  | some kind =>
    have hkind : kind ∈ FrameKind.all := by
      obtain ⟨name, -, hkind⟩ := Option.bind_eq_some_iff.1 hname
      exact List.mem_of_find?_eq_some hkind
    have htypes (ns : List Node) :
        Tracks (ns.mapM (readType at_)) fun vs definitions references =>
          definitions = vs.flatMap (fun _ => []) ∧
            references = vs.flatMap (fun v => v.label?.toList) ∧ ∀ v ∈ vs, v.IsSound :=
      .mapM fun _ _ => tracks_readType
    refine (htypes _).bind ?_
    rintro locals _ _ ⟨rfl, rfl, hlocals⟩
    refine (htypes _).bind ?_
    rintro stack _ _ ⟨rfl, rfl, hstack⟩
    refine .lift_bind fun chop hchop => .pure ⟨by simp, ?_, ?_⟩
    · simp [Frame.references, List.filterMap_eq_flatMap_toList]
    · refine ⟨hkind, hlocals, hstack, ?_⟩
      cases chop with
      | none => exact isInt_ofNat (n := 0) (by decide)
      | some i => exact isInt_of_optional hchop i rfl

/-! ## Items -/

/-- An item is sound; it defines its label and refers to its labels. -/
theorem tracks_readItem : Tracks (readItem at_ n) fun i definitions references =>
    definitions = i.label?.toList ∧ references = i.references ∧ i.IsSound := by
  unfold readItem
  split_ifs
  · refine tracks_readDefinition.bind ?_
    rintro l _ _ ⟨rfl, rfl⟩
    exact .pure ⟨rfl, rfl, trivial⟩
  · exact .lift_bind fun _ _ => .lift_bind fun i hi => .pure ⟨rfl, rfl, isInt_of_intOf hi⟩
  · refine tracks_readFrame.bind ?_
    rintro f _ _ ⟨rfl, rfl, hf⟩
    exact .pure ⟨rfl, by simp [Item.references], hf⟩
  · split
    · refine (tracks_readOperands _).bind ?_
      rintro i _ _ ⟨hi, rfl, rfl⟩
      exact .pure ⟨rfl, by simp [Item.references], hi⟩
    · exact .lift fun _ h => by cases h
  · exact .lift fun _ h => by cases h

/-- The items of a body are sound; the body defines its labels and refers to those of its items. -/
theorem tracks_readItems : Tracks (readItems at_ n) fun body labels references =>
    labels = definitions body ∧ references = body.flatMap Item.references ∧
      ∀ i ∈ body, i.IsSound := by
  refine (Tracks.mapM (D := fun i => i.label?.toList) (R := Item.references) (P := Item.IsSound)
    fun _ _ => tracks_readItem).imp ?_
  rintro body _ _ ⟨rfl, rfl, hbody⟩
  exact ⟨(List.filterMap_eq_flatMap_toList _ _).symm, rfl, hbody⟩

/-! ## Code -/

theorem tracks_readHandler : Tracks (readHandler at_ n) fun h definitions references =>
    definitions = [] ∧ references = h.references := by
  unfold readHandler
  dsimp only
  split
  · refine tracks_readReference.bind ?_
    rintro start _ _ ⟨rfl, rfl⟩
    refine tracks_readReference.bind ?_
    rintro stop _ _ ⟨rfl, rfl⟩
    refine tracks_readReference.bind ?_
    rintro target _ _ ⟨rfl, rfl⟩
    split
    · exact .lift_bind fun _ _ => .pure ⟨rfl, rfl⟩
    · exact .pure ⟨rfl, rfl⟩
  · exact .lift fun _ h => by cases h

theorem isSome_of_optional {α : Type} {read : Node → Result α} {a? : Option α}
    (h : optional read n name = .ok a?) (hpart : (n.part? name).isSome = true) :
    a?.isSome = true := by
  unfold optional at h
  cases hp : n.part? name with
  | none =>
    rw [hp] at hpart
    cases hpart
  | some p =>
    rw [hp] at h
    obtain ⟨a, -, h⟩ := Result.bind_eq_ok_iff.1 h
    cases h
    rfl

/-- A local variable is sound and refers to its labels. -/
theorem tracks_readLocalVariable : Tracks (readLocalVariable at_ n) fun v definitions references =>
    definitions = [] ∧ references = v.references ∧ v.IsSound := by
  unfold readLocalVariable
  refine .lift_bind fun name hname => .lift_bind fun descriptor hdescriptor => ?_
  dsimp only
  split
  · intro r r' v hr h
    cases h
  · next htyped =>
    refine .lift_bind fun _ _ => tracks_readReference.bind ?_
    rintro start _ _ ⟨rfl, rfl⟩
    refine .lift_bind fun _ _ => tracks_readReference.bind ?_
    rintro stop _ _ ⟨rfl, rfl⟩
    refine .lift_bind fun slot hslot => .lift_bind fun signature hsignature =>
      .pure ⟨rfl, rfl, ?_, isInt_of_required hslot⟩
    cases descriptor with
    | some d => exact .inl rfl
    | none =>
      refine .inr (isSome_of_optional hsignature ?_)
      cases hpart : n.part? "signature" with
      | some p => rfl
      | none => exact absurd (by rw [hpart]; rfl) htyped

/-- The code of a method may have a body. -/
theorem tracks_collectBody : Tracks (collectBody at_ n) fun body labels references =>
    labels = definitions body ∧ references = body.flatMap Item.references ∧
      ∀ i ∈ body, i.IsSound := by
  unfold collectBody
  split
  · exact tracks_readItems
  · exact .pure ⟨rfl, rfl, by simp⟩

/-- What the code of a method defines and refers to. -/
theorem tracks_collectCode : Tracks (collectCode at_ n) fun code labels references =>
    labels = definitions code.body ∧ references = code.references ∧
      (∀ i ∈ code.body, i.IsSound) ∧ ∀ v ∈ code.localVariables, v.IsSound := by
  have hhandlers (ns : List Node) :
      Tracks (ns.mapM (readHandler at_)) fun hs labels references =>
        labels = hs.flatMap (fun _ => []) ∧ references = hs.flatMap Handler.references ∧
          ∀ h ∈ hs, True :=
    .mapM fun _ _ => tracks_readHandler.imp fun _ _ _ h => ⟨h.1, h.2, trivial⟩
  have hlocals (ns : List Node) :
      Tracks (ns.mapM (readLocalVariable at_)) fun vs labels references =>
        labels = vs.flatMap (fun _ => []) ∧ references = vs.flatMap LocalVariable.references ∧
          ∀ v ∈ vs, v.IsSound :=
    .mapM fun _ _ => tracks_readLocalVariable
  refine tracks_collectBody.bind ?_
  rintro body _ _ ⟨rfl, rfl, hbody⟩
  refine (hhandlers _).bind ?_
  rintro handlers _ _ ⟨rfl, rfl, -⟩
  refine (hlocals _).bind ?_
  rintro locals _ _ ⟨rfl, rfl, hlocals⟩
  exact .pure ⟨by simp, by simp [CodeParts.references], hbody, hlocals⟩

/-- The code of a method is sound, and it is closed. -/
theorem isSound_of_readCode {place' : Text} {code : CodeParts} {r : Label.Registry}
    (h : readCode at_ n { place := place' } = .ok (code, r)) :
    (∀ i ∈ code.body, i.IsSound) ∧ (∀ v ∈ code.localVariables, v.IsSound) ∧
      Closed code.body code.handlers code.localVariables := by
  rw [readCode_apply] at h
  obtain ⟨⟨collected, r'⟩, hcollect, h⟩ := Result.bind_eq_ok_iff.1 h
  obtain ⟨⟨⟩, hclosed, h⟩ := Result.bind_eq_ok_iff.1 h
  cases h
  obtain ⟨_, _, hextends, rfl, rfl, hitems, hlocals⟩ :=
    tracks_collectCode _ _ _ (isConsistent_new _) hcollect
  have hdefined : ∀ l ∈ code.references, l ∈ definitions code.body := by
    intro l hl
    have hcontains := Label.Registry.close_eq_ok_iff.1 hclosed l ((hextends.targets l).2 (.inr hl))
    simpa using (hextends.defined l).1 hcontains
  refine ⟨hitems, hlocals, hextends.nodup, fun i hi l hl => hdefined l ?_, fun h hh l hl =>
    hdefined l ?_, fun v hv l hl => hdefined l ?_⟩
  · exact List.mem_append_left _ (List.mem_append_left _ (List.mem_flatMap.2 ⟨i, hi, hl⟩))
  · exact List.mem_append_left _ (List.mem_append_right _ (List.mem_flatMap.2 ⟨h, hh, hl⟩))
  · exact List.mem_append_right _ (List.mem_flatMap.2 ⟨v, hv, hl⟩)

/-! ## Members -/

/-- The flags of a field have four bytes. -/
theorem isInt_of_readField {f : Field} (h : readField path n = .ok f) : IsInt f.access := by
  obtain ⟨_, -, h⟩ := Result.bind_eq_ok_iff.1 h
  obtain ⟨access, haccess, h⟩ := Result.bind_eq_ok_iff.1 h
  obtain ⟨_, -, h⟩ := Result.bind_eq_ok_iff.1 h
  obtain ⟨_, -, h⟩ := Result.bind_eq_ok_iff.1 h
  obtain ⟨_, -, h⟩ := Result.bind_eq_ok_iff.1 h
  obtain ⟨_, -, h⟩ := Result.bind_eq_ok_iff.1 h
  obtain ⟨_, -, h⟩ := Result.bind_eq_ok_iff.1 h
  cases h
  exact isInt_of_required haccess

/-- The place of a parameter has a numeral. -/
theorem lt_of_readParameterName {descriptor : Text} {index : Int}
    (h : readParameterName path n = .ok (descriptor, index)) :
    0 ≤ index ∧ index.toNat < 10 ^ Text.maxNumeralLength := by
  unfold readParameterName at h
  dsimp only at h
  split at h
  · split at h
    · obtain ⟨_, -, h⟩ := Result.bind_eq_ok_iff.1 h
      split at h
      · next i hi =>
        cases h
        exact ⟨Int.natCast_nonneg i, Text.lt_of_toNat? hi⟩
      · cases h
    · cases h
  · cases h

/-- A number that may be left out where it is zero. -/
theorem isInt_getD {i? : Option Int} (h : ∀ i ∈ i?, IsInt i) : IsInt (i?.getD 0) := by
  cases i? with
  | none => exact isInt_ofNat (n := 0) (by decide)
  | some i => exact h i rfl

theorem isSound_of_readParameter {p : Parameter} (h : readParameter path n = .ok p) : p.IsSound := by
  obtain ⟨⟨descriptor, index⟩, hindex, h⟩ := Result.bind_eq_ok_iff.1 h
  obtain ⟨_, -, h⟩ := Result.bind_eq_ok_iff.1 h
  obtain ⟨_, -, h⟩ := Result.bind_eq_ok_iff.1 h
  obtain ⟨access, haccess, h⟩ := Result.bind_eq_ok_iff.1 h
  cases h
  exact ⟨lt_of_readParameterName hindex, isInt_getD (isInt_of_optional haccess)⟩

/-- The sizes of the stack and of the locals have four bytes. -/
theorem isInt_of_readMaxima {m : Maxima} (h : readMaxima path n = .ok m) :
    IsInt m.stack ∧ IsInt m.locals := by
  unfold readMaxima at h
  split at h
  · obtain ⟨stack, hstack, h⟩ := Result.bind_eq_ok_iff.1 h
    obtain ⟨locals, hlocals, h⟩ := Result.bind_eq_ok_iff.1 h
    cases h
    exact ⟨isInt_of_intOf hstack, isInt_of_intOf hlocals⟩
  · cases h

/-- The sizes of the stack and of the locals have four bytes where they are given. -/
theorem isInt_of_mapM_readMaxima {m? : Option Maxima}
    (h : (n.part? name).mapM (readMaxima path) = .ok m?) :
    ∀ m ∈ m?, IsInt m.stack ∧ IsInt m.locals := by
  cases hpart : n.part? name with
  | none =>
    rw [hpart] at h
    cases h
    exact nofun
  | some p =>
    rw [hpart] at h
    obtain ⟨m, hm, h⟩ := Result.map_eq_ok_iff.1 h
    cases h
    rintro _ ⟨⟩
    exact isInt_of_readMaxima hm

theorem isSound_of_readMethod {className : Text} {m : Method}
    (h : readMethod path className n = .ok m) : m.IsSound := by
  obtain ⟨_, -, h⟩ := Result.bind_eq_ok_iff.1 h
  obtain ⟨access, haccess, h⟩ := Result.bind_eq_ok_iff.1 h
  obtain ⟨_, -, h⟩ := Result.bind_eq_ok_iff.1 h
  obtain ⟨maxima, hmaxima, h⟩ := Result.bind_eq_ok_iff.1 h
  obtain ⟨⟨code, r⟩, hcode, h⟩ := Result.bind_eq_ok_iff.1 h
  obtain ⟨_, -, h⟩ := Result.bind_eq_ok_iff.1 h
  obtain ⟨_, -, h⟩ := Result.bind_eq_ok_iff.1 h
  obtain ⟨_, -, h⟩ := Result.bind_eq_ok_iff.1 h
  obtain ⟨parameters, hparameters, h⟩ := Result.bind_eq_ok_iff.1 h
  obtain ⟨_, -, h⟩ := Result.bind_eq_ok_iff.1 h
  obtain ⟨_, -, h⟩ := Result.bind_eq_ok_iff.1 h
  obtain ⟨_, -, h⟩ := Result.bind_eq_ok_iff.1 h
  obtain ⟨visible, hvisible, h⟩ := Result.bind_eq_ok_iff.1 h
  obtain ⟨invisible, hinvisible, h⟩ := Result.bind_eq_ok_iff.1 h
  obtain ⟨count, hcount, h⟩ := Result.bind_eq_ok_iff.1 h
  cases h
  obtain ⟨hitems, hlocals, hclosed⟩ := isSound_of_readCode hcode
  refine ⟨isInt_of_required haccess, fun p hp => ?_, isInt_of_mapM_readMaxima hmaxima, hitems,
    hlocals, hclosed, isInt_of_optional hvisible, isInt_of_optional hinvisible,
    isInt_of_optional hcount⟩
  obtain ⟨_, -, hread⟩ := Result.exists_of_mem_right (Result.mapM_eq_ok_iff.1 hparameters) hp
  exact isSound_of_readParameter hread

/-! ## Classes -/

/-- The version has two numbers of four bytes. -/
theorem isInt_of_readVersion {version : Int × Int} (h : readVersion path n = .ok version) :
    IsInt version.1 ∧ IsInt version.2 := by
  unfold readVersion at h
  split at h
  · obtain ⟨major, hmajor, h⟩ := Result.bind_eq_ok_iff.1 h
    obtain ⟨minor, hminor, h⟩ := Result.bind_eq_ok_iff.1 h
    cases h
    exact ⟨isInt_of_intOf hmajor, isInt_of_intOf hminor⟩
  · cases h

/-- The flags of a member class have four bytes. -/
theorem isInt_of_readInnerClass {i : InnerClass} (h : readInnerClass path n = .ok i) :
    IsInt i.access := by
  obtain ⟨_, -, h⟩ := Result.bind_eq_ok_iff.1 h
  obtain ⟨_, -, h⟩ := Result.bind_eq_ok_iff.1 h
  obtain ⟨_, -, h⟩ := Result.bind_eq_ok_iff.1 h
  obtain ⟨access, haccess, h⟩ := Result.bind_eq_ok_iff.1 h
  cases h
  exact isInt_of_required haccess

/-- The members that have been read are sound. -/
structure Members.IsSound (m : Members) : Prop where
  fields : ∀ f ∈ m.fields, IsInt f.access
  methods : ∀ method ∈ m.methods, Method.IsSound method

theorem isSound_of_readMember {className : Text} {m m' : Members} (hm : m.IsSound)
    (h : readMember path className m n = .ok m') : m'.IsSound := by
  unfold readMember at h
  split at h
  · obtain ⟨f, hf, h⟩ := Result.bind_eq_ok_iff.1 h
    cases h
    exact ⟨List.forall_mem_cons.2 ⟨isInt_of_readField hf, hm.fields⟩, hm.methods⟩
  · split at h
    · obtain ⟨method, hmethod, h⟩ := Result.bind_eq_ok_iff.1 h
      cases h
      exact ⟨hm.fields, List.forall_mem_cons.2 ⟨isSound_of_readMethod hmethod, hm.methods⟩⟩
    · cases h
      exact hm

theorem isSound_of_foldlM_readMember {className : Text} {ns : List Node} {m m' : Members}
    (hm : m.IsSound) (h : ns.foldlM (readMember path className) m = .ok m') : m'.IsSound := by
  induction ns generalizing m with
  | nil =>
    cases h
    exact hm
  | cons n ns ih =>
    rw [List.foldlM_cons] at h
    obtain ⟨m₁, hm₁, h⟩ := Result.bind_eq_ok_iff.1 h
    exact ih (isSound_of_readMember hm hm₁) h

theorem isSound_of_readNamed {c : Class} (h : readNamed name n = .ok c) : c.IsSound := by
  obtain ⟨version, hversion, h⟩ := Result.bind_eq_ok_iff.1 h
  obtain ⟨access, haccess, h⟩ := Result.bind_eq_ok_iff.1 h
  obtain ⟨_, -, h⟩ := Result.bind_eq_ok_iff.1 h
  obtain ⟨_, -, h⟩ := Result.bind_eq_ok_iff.1 h
  obtain ⟨innerClasses, hinner, h⟩ := Result.bind_eq_ok_iff.1 h
  obtain ⟨members, hmembers, h⟩ := Result.bind_eq_ok_iff.1 h
  obtain ⟨_, -, h⟩ := Result.bind_eq_ok_iff.1 h
  obtain ⟨_, -, h⟩ := Result.bind_eq_ok_iff.1 h
  obtain ⟨_, -, h⟩ := Result.bind_eq_ok_iff.1 h
  obtain ⟨_, -, h⟩ := Result.bind_eq_ok_iff.1 h
  obtain ⟨_, -, h⟩ := Result.bind_eq_ok_iff.1 h
  cases h
  have hsound := isSound_of_foldlM_readMember ⟨by simp, by simp⟩ hmembers
  refine ⟨isInt_of_required haccess, ?_, fun f hf => hsound.fields f (by simpa using hf),
    fun m hm => hsound.methods m (by simpa using hm), fun i hi => ?_⟩
  · unfold optional at hversion
    split at hversion
    · obtain ⟨v, hv, hversion⟩ := Result.bind_eq_ok_iff.1 hversion
      cases hversion
      exact isInt_of_readVersion hv
    · cases hversion
      exact ⟨isInt_ofNat (n := 52) (by decide), isInt_ofNat (n := 0) (by decide)⟩
  · obtain ⟨_, -, hread⟩ := Result.exists_of_mem_right (Result.mapM_eq_ok_iff.1 hinner) hi
    exact isInt_of_readInnerClass hread

end ClassTree.Tree

namespace ClassTree.Class

/-- A class that has been read of a tree is sound. -/
theorem isSound_of_ofTree {n : Tree.Node} {c : Class} (h : ofTree n = .ok c) : c.IsSound := by
  unfold ofTree at h
  split at h
  · split at h
    · exact Tree.isSound_of_readNamed h
    · cases h
  · cases h

end ClassTree.Class
