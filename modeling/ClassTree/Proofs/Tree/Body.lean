/-
# ClassTree.Proofs.Tree.Body — method bodies read back

An item of a body is written as a node, and the node is read back as the item: it defines the label
and refers to the labels that the item does. One lemma for each thing that is written says so, from
method handles up to whole bodies.
-/
import ClassTree.Proofs.Operation
import ClassTree.Proofs.Text.Numeral
import ClassTree.Proofs.Tree.Labels
import ClassTree.Proofs.Tree.Part

namespace ClassTree.Tree

open Literal (Kind IsOf IsNamed)

variable {at_ : Location} {n m : Node} {place : Text}

/-! ## Operands -/

theorem operand_eq {i : Nat} (h : n.children[i]? = some m) : n.operand i place = .ok m := by
  unfold Node.operand
  rw [h]

theorem operand_bind {α : Type} {read : Node → Result α} {i : Nat} {a : α}
    (h : n.children[i]? = some m) (hread : read m = .ok a) :
    (n.operand i place >>= read) = .ok a := by
  rw [operand_eq h]
  exact hread

/-- A text that has to be there has a leaf. -/
theorem exists_nameLeaf {t? : Option Text} (h : ∃ t, t? = some t) (name : Option Text) :
    ∃ t n, t? = some t ∧ nameLeaf t? name = .ok n ∧ n.Holds .string (.text t) ∧ n.name = name := by
  obtain ⟨t, rfl⟩ := h
  obtain ⟨n, hn⟩ := exists_textLeaf t name
  exact ⟨t, n, rfl, hn⟩

theorem exists_handle {h : Handle} (hkind : IsInt h.kind) (howner : ∃ s, h.owner = some s) :
    ∃ n, ofHandle h = .ok n ∧ n.base = some Literal.handleKind ∧
      ∀ at_, readHandle at_ n = .ok h := by
  obtain ⟨kindNode, hkindNode, hkind, -⟩ := exists_intLeaf hkind none
  obtain ⟨owner, ownerNode, howner?, hownerNode, howner, -⟩ := exists_nameLeaf howner none
  obtain ⟨nameNode, hnameNode, hname, -⟩ := exists_textLeaf h.name none
  obtain ⟨descriptorNode, hdescriptorNode, hdescriptor, -⟩ := exists_textLeaf h.descriptor none
  obtain ⟨interfaceNode, hinterfaceNode, hinterface, -⟩ := exists_boolLeaf h.interface none
  refine ⟨entity Literal.handleKind none [kindNode, ownerNode, nameNode, descriptorNode,
    interfaceNode], ?_, rfl, fun at_ => ?_⟩
  · simp only [ofHandle, hkindNode, hownerNode, hnameNode, hdescriptorNode, hinterfaceNode]
    rfl
  · simp [readHandle, Node.operand, entity, hkind.intOf, howner.textOf, hname.textOf,
      hdescriptor.textOf, hinterface.boolOf, ← howner?]

/-! ## Constants -/

theorem name_ne_handleKind (kind : Kind) : kind.name ≠ Literal.handleKind := by
  cases kind <;> decide

/-- A constant under the name of its kind is read wherever kinds of this name may stand. -/
theorem exists_constant {name : Text} {v : Constant} (h : IsNamed name v) (hv : v.IsProper) :
    ∃ n, ofConstant name v = .ok n ∧ n.base = some name ∧
      ∀ at_ kinds, (∀ kind ∈ Literal.passable, kind.name = name → kind ∈ kinds) →
        readLoaded at_ kinds n = .ok v := by
  cases h with
  | @literal kind v hkind h =>
    obtain ⟨text, htext, hdecode⟩ := h.exists_encodeAs hv.isNumber
    refine ⟨{ base := some kind.name, data := some Node.leafMark, text := some text }, ?_, rfl,
      fun at_ kinds hkinds => ?_⟩
    · unfold ofConstant Literal.encodeNamed
      rw [if_neg (name_ne_handleKind kind), Literal.Kind.ofName?_name]
      simp only [htext]
      rfl
    · unfold readLoaded
      rw [if_neg fun hbase => name_ne_handleKind kind (Option.some.inj hbase)]
      have hholds : Node.Holds
          { base := some kind.name, data := some Node.leafMark, text := some text } kind v :=
        ⟨by simp [Node.isLeaf], rfl, hdecode⟩
      exact hholds.constantOf (hkinds kind hkind rfl)
  | @handle handle hkind =>
    obtain ⟨n, hn, hbase, hread⟩ := exists_handle hkind hv
    refine ⟨n, ?_, hbase, fun at_ kinds _ => ?_⟩
    · unfold ofConstant
      rw [if_pos rfl]
      exact hn
    · unfold readLoaded
      rw [if_pos hbase, hread at_]
      rfl

/-- What an instruction loads is one of the constants that it may load. -/
theorem mem_loadable {op : Opcode} {v : Constant} {kind : Kind} (hkind : kind ∈ Literal.passable)
    (h : kind.name = Literal.loadedKind op v) : kind ∈ loadable op := by
  unfold Literal.loadedKind at h
  unfold loadable
  by_cases hop : op = .ldc2_w
  · rw [if_pos hop] at h ⊢
    split at h <;> cases Literal.Kind.name_injective h <;> simp
  · rw [if_neg hop] at h ⊢
    split at h
    · exact absurd h (name_ne_handleKind kind)
    all_goals cases Literal.Kind.name_injective h; simp

/-! ## Instructions -/

/-- Leaves for labels, each read as a reference. -/
theorem exists_labelLeaves (ls : List Label) : ∃ ns, ls.mapM (fun l => labelLeaf l none) = .ok ns ∧
    ∀ at_, Reaches (ns.mapM (readReference at_)) ls [] ls := by
  obtain ⟨ns, hns, hread⟩ := exists_mapM (Q := fun l (n : Node) => n.Holds .label (.label l))
    fun l (_ : l ∈ ls) => by
      obtain ⟨n, hn, hholds, -⟩ := exists_labelLeaf l none
      exact ⟨n, hn, hholds⟩
  refine ⟨ns, hns, fun at_ => ?_⟩
  have hreach := Reaches.mapM (f := readReference at_) (D := fun _ => []) (R := fun l => [l])
    (hread.flip.imp fun _ _ h => reaches_readReference h.labelOf)
  rwa [List.flatMap_singleton', List.flatMap_eq_nil_iff.2 (fun _ _ => rfl)] at hreach

theorem exists_intLeaves {ks : List Int} (h : ∀ k ∈ ks, IsInt k) :
    ∃ ns, ks.mapM (fun k => intLeaf k none) = .ok ns ∧ ∀ at_ : Location,
      Reaches (ns.mapM fun m => (intOf at_.path m : Labelled Int)) ks [] [] := by
  obtain ⟨ns, hns, hread⟩ := exists_mapM (Q := fun k (n : Node) => n.Holds .int (.int k))
    fun k hk => by
      obtain ⟨n, hn, hholds, -⟩ := exists_intLeaf (h k hk) none
      exact ⟨n, hn, hholds⟩
  refine ⟨ns, hns, fun at_ => ?_⟩
  have hreach := Reaches.mapM (f := fun m => (intOf at_.path m : Labelled Int)) (D := fun _ => [])
    (R := fun _ => []) (hread.flip.imp fun (m : Node) (k : Int) (h : m.Holds .int (.int k)) =>
       .lift h.intOf)
  rwa [List.flatMap_eq_nil_iff.2 (fun _ _ => rfl)] at hreach

theorem exists_arguments {arguments : List (Text × Constant)}
    (hs : ∀ a ∈ arguments, IsNamed a.1 a.2) (hp : ∀ a ∈ arguments, a.2.IsProper) :
    ∃ ns, (arguments.mapM fun (kind, value) => ofConstant kind value) = .ok ns ∧
      ∀ at_, ns.mapM (readArgument at_) = .ok arguments := by
  obtain ⟨ns, hns, hread⟩ := exists_mapM
    (Q := fun a n => ∀ at_, readArgument at_ n = .ok a)
    fun (a : Text × Constant) ha => by
      obtain ⟨n, hn, hbase, hread⟩ := exists_constant (hs a ha) (hp a ha)
      refine ⟨n, hn, fun at_ => ?_⟩
      unfold readArgument
      rw [hread at_ [.int, .float, .long, .double, .string, .reference, .methodType] fun _ hkind _ =>
        hkind, hbase]
      rfl
  exact ⟨ns, hns, fun at_ => Result.mapM_eq_ok_iff.2 (hread.flip.imp fun _ _ h => h at_)⟩

/-- The operands of an instruction are read back under its code. -/
theorem exists_operands {i : Instruction Label} (hs : i.IsSound) (hp : i.IsProper) :
    ∃ children, ofOperands i = .ok children ∧ ∀ (at_ : Location) (n : Node), n.children = children →
      Reaches (readOperands at_ i.opcode n) i [] i.targets := by
  cases i with
  | plain op =>
    have hfamily : op.family = .plain := hs
    refine ⟨[], rfl, fun at_ n hn => ?_⟩
    simp only [readOperands, Instruction.opcode, hfamily]
    exact .pure _
  | immediate op k =>
    obtain ⟨hfamily, hint⟩ := hs
    obtain ⟨m, hm, hk, -⟩ := exists_intLeaf hint none
    refine ⟨[m], by simp [ofOperands, hm], fun at_ n hn => ?_⟩
    simp only [readOperands, Instruction.opcode, hfamily]
    exact .lift_bind (operand_bind (m := m) (by simp [hn]) hk.intOf) (.pure _)
  | «variable» op slot =>
    obtain ⟨hfamily, hint⟩ := hs
    obtain ⟨m, hm, hslot, -⟩ := exists_intLeaf hint none
    refine ⟨[m], by simp [ofOperands, hm], fun at_ n hn => ?_⟩
    simp only [readOperands, Instruction.opcode, hfamily]
    exact .lift_bind (operand_bind (m := m) (by simp [hn]) hslot.intOf) (.pure _)
  | increment slot amount =>
    obtain ⟨slotNode, hslotNode, hslot, -⟩ := exists_intLeaf hs.1 none
    obtain ⟨amountNode, hamountNode, hamount, -⟩ := exists_intLeaf hs.2 none
    refine ⟨[slotNode, amountNode], by simp [ofOperands, hslotNode, hamountNode], fun at_ n hn => ?_⟩
    have hfamily : Opcode.iinc.family = .increment := rfl
    simp only [readOperands, Instruction.opcode, hfamily]
    exact .lift_bind (operand_bind (m := slotNode) (by simp [hn]) hslot.intOf)
      (.lift_bind (operand_bind (m := amountNode) (by simp [hn]) hamount.intOf) (.pure _))
  | constant op v =>
    have hfamily : op.family = .constant := hs
    obtain ⟨m, hm, -, hread⟩ := exists_constant hp.1 hp.2
    refine ⟨[m], by simp [ofOperands, hm], fun at_ n hn => ?_⟩
    simp only [readOperands, Instruction.opcode, hfamily]
    exact .lift_bind (operand_eq (m := m) (by simp [hn]))
      (.lift_bind (hread at_ _ fun kind hkind hname => mem_loadable hkind hname) (.pure _))
  | type op name =>
    have hfamily : op.family = .type := hs
    obtain ⟨s, rfl⟩ := hp
    obtain ⟨m, hm, hname, -⟩ := exists_leaf (.reference s) trivial none
    refine ⟨[m], by simp [ofOperands, hm], fun at_ n hn => ?_⟩
    simp only [readOperands, Instruction.opcode, hfamily]
    exact .lift_bind (operand_eq (m := m) (by simp [hn])) (.lift_bind hname.referenceOf (.pure _))
  | field op owner name descriptor =>
    have hfamily : op.family = .field := hs
    obtain ⟨s, ownerNode, rfl, hownerNode, howner, -⟩ := exists_nameLeaf hp none
    obtain ⟨nameNode, hnameNode, hname, -⟩ := exists_textLeaf name none
    obtain ⟨descriptorNode, hdescriptorNode, hdescriptor, -⟩ := exists_textLeaf descriptor none
    refine ⟨[ownerNode, nameNode, descriptorNode],
      by simp [ofOperands, hownerNode, hnameNode, hdescriptorNode], fun at_ n hn => ?_⟩
    simp only [readOperands, Instruction.opcode, hfamily]
    exact .lift_bind (operand_bind (m := ownerNode) (by simp [hn]) howner.textOf)
      (.lift_bind (operand_bind (m := nameNode) (by simp [hn]) hname.textOf)
        (.lift_bind (operand_bind (m := descriptorNode) (by simp [hn]) hdescriptor.textOf) (.pure _)))
  | method op owner name descriptor interface =>
    have hfamily : op.family = .method := hs
    obtain ⟨s, ownerNode, rfl, hownerNode, howner, -⟩ := exists_nameLeaf hp none
    obtain ⟨nameNode, hnameNode, hname, -⟩ := exists_textLeaf name none
    obtain ⟨descriptorNode, hdescriptorNode, hdescriptor, -⟩ := exists_textLeaf descriptor none
    obtain ⟨interfaceNode, hinterfaceNode, hinterface, -⟩ := exists_boolLeaf interface none
    refine ⟨[ownerNode, nameNode, descriptorNode, interfaceNode],
      by simp [ofOperands, hownerNode, hnameNode, hdescriptorNode, hinterfaceNode],
      fun at_ n hn => ?_⟩
    simp only [readOperands, Instruction.opcode, hfamily]
    exact .lift_bind (operand_bind (m := ownerNode) (by simp [hn]) howner.textOf)
      (.lift_bind (operand_bind (m := nameNode) (by simp [hn]) hname.textOf)
        (.lift_bind (operand_bind (m := descriptorNode) (by simp [hn]) hdescriptor.textOf)
          (.lift_bind (operand_eq (m := interfaceNode) (by simp [hn]))
            (.lift_bind hinterface.boolOf (.pure _)))))
  | callSite name descriptor bootstrap arguments =>
    obtain ⟨nameNode, hnameNode, hname, -⟩ := exists_textLeaf name none
    obtain ⟨descriptorNode, hdescriptorNode, hdescriptor, -⟩ := exists_textLeaf descriptor none
    obtain ⟨bootstrapNode, hbootstrapNode, -, hbootstrap⟩ := exists_handle hs.1 hp.1
    obtain ⟨ns, hns, harguments⟩ := exists_arguments hs.2 hp.2
    refine ⟨[nameNode, descriptorNode, bootstrapNode, group (some "arguments") ns],
      by simp [ofOperands, hnameNode, hdescriptorNode, hbootstrapNode, hns], fun at_ n hn => ?_⟩
    have hfamily : Opcode.invokedynamic.family = .callSite := rfl
    simp only [readOperands, Instruction.opcode, hfamily]
    refine .lift ?_
    simp [readCallSite, Node.operand, hn, group, entity, harguments, hname.textOf,
      hdescriptor.textOf, hbootstrap]
  | jump op target =>
    have hfamily : op.family = .jump := hs
    obtain ⟨m, hm, htarget, -⟩ := exists_labelLeaf target none
    refine ⟨[m], by simp [ofOperands, hm], fun at_ n hn => ?_⟩
    simp only [readOperands, Instruction.opcode, hfamily]
    exact .lift_bind (operand_eq (m := m) (by simp [hn]))
      ((reaches_readReference htarget.labelOf).bind_pure _)
  | tableSwitch low high otherwise targets =>
    obtain ⟨lowNode, hlowNode, hlow, -⟩ := exists_intLeaf hs.1 none
    obtain ⟨highNode, hhighNode, hhigh, -⟩ := exists_intLeaf hs.2 none
    obtain ⟨otherwiseNode, hotherwiseNode, hotherwise, -⟩ := exists_labelLeaf otherwise none
    obtain ⟨ns, hns, htargets⟩ := exists_labelLeaves targets
    refine ⟨[lowNode, highNode, otherwiseNode, group (some "labels") ns],
      by simp [ofOperands, hlowNode, hhighNode, hotherwiseNode, hns], fun at_ n hn => ?_⟩
    have hfamily : Opcode.tableswitch.family = .tableSwitch := rfl
    simp only [readOperands, Instruction.opcode, hfamily, readTableSwitch]
    -- the reader takes the labels before the bounds, which are written first
    refine .of_eq (.lift_bind (operand_eq (m := otherwiseNode) (by simp [hn]))
      ((reaches_readReference hotherwise.labelOf).bind
        (.lift_bind (operand_eq (m := group (some "labels") ns) (by simp [hn]))
          ((htargets at_).bind
            (.lift_bind (operand_eq (m := lowNode) (by simp [hn])) (.lift_bind hlow.intOf
              (.lift_bind (operand_eq (m := highNode) (by simp [hn])) (.lift_bind hhigh.intOf
                (.pure _))))))))) rfl ?_
    simp [Instruction.targets]
  | lookupSwitch otherwise keys targets =>
    obtain ⟨otherwiseNode, hotherwiseNode, hotherwise, -⟩ := exists_labelLeaf otherwise none
    obtain ⟨ks, hks, hkeys⟩ := exists_intLeaves hs.2
    obtain ⟨ns, hns, htargets⟩ := exists_labelLeaves targets
    refine ⟨[otherwiseNode, group (some "keys") ks, group (some "labels") ns],
      by simp [ofOperands, hotherwiseNode, hks, hns], fun at_ n hn => ?_⟩
    have hfamily : Opcode.lookupswitch.family = .lookupSwitch := rfl
    simp only [readOperands, Instruction.opcode, hfamily, readLookupSwitch]
    refine .of_eq (.lift_bind (operand_eq (m := otherwiseNode) (by simp [hn]))
      ((reaches_readReference hotherwise.labelOf).bind
        (.lift_bind (operand_eq (m := group (some "keys") ks) (by simp [hn]))
          ((hkeys at_).bind
            (.lift_bind (operand_eq (m := group (some "labels") ns) (by simp [hn]))
              ((htargets at_).bind (.of_pos hs.1 (.pure _)))))))) rfl ?_
    simp [Instruction.targets]
  | multiArray descriptor dimensions =>
    obtain ⟨s, descriptorNode, rfl, hdescriptorNode, hdescriptor, -⟩ := exists_nameLeaf hp none
    obtain ⟨dimensionsNode, hdimensionsNode, hdimensions, -⟩ := exists_intLeaf hs none
    refine ⟨[descriptorNode, dimensionsNode],
      by simp [ofOperands, hdescriptorNode, hdimensionsNode], fun at_ n hn => ?_⟩
    have hfamily : Opcode.multianewarray.family = .multiArray := rfl
    simp only [readOperands, Instruction.opcode, hfamily]
    exact .lift_bind (operand_bind (m := descriptorNode) (by simp [hn]) hdescriptor.textOf)
      (.lift_bind (operand_bind (m := dimensionsNode) (by simp [hn]) hdimensions.intOf) (.pure _))

/-! ## Frames -/

theorem exists_type {v : VerificationType} (hs : v.IsSound) (hp : v ≠ .object none) :
    ∃ n, ofType v = .ok n ∧ ∀ at_, Reaches (readType at_ n) v [] v.label?.toList := by
  -- the tag of a type without a payload says it all
  have hplain (name : Text) (children : List Node) (hpayload : ofPayload v = .ok children)
      (hname : typeName v.tag = .ok name) :
      ofType v = .ok (entity "vtype" (some name) children) := by
    simp [ofType, hpayload, hname]
  cases v with
  | object name? =>
    cases name? with
    | none => exact absurd rfl hp
    | some t =>
      obtain ⟨m, hm, ht, -⟩ := exists_textLeaf t none
      have hpayload : ofPayload (.object (some t)) = .ok [m] := by
        show (do return [← textLeaf t none]) = Except.ok [m]
        rw [hm]
        rfl
      refine ⟨_, hplain "Object" [m] hpayload rfl, fun at_ => ?_⟩
      exact .lift_bind (operand_eq rfl) (.lift_bind ht.textOf (.pure _))
  | uninitialized site =>
    cases site with
    | position p => exact hs.elim
    | label l =>
      obtain ⟨m, hm, hl, -⟩ := exists_labelLeaf l none
      have hpayload : ofPayload (.uninitialized (.label l)) = .ok [m] := by
        show (do return [← labelLeaf l none]) = Except.ok [m]
        rw [hm]
        rfl
      refine ⟨_, hplain "Uninitialized" [m] hpayload rfl, fun at_ => ?_⟩
      exact .lift_bind (operand_eq rfl) ((reaches_readReference hl.labelOf).bind_pure _)
  | irregular tag payload => exact hs.elim
  | top => exact ⟨_, hplain "Top" [] rfl rfl, fun at_ => .pure _⟩
  | integer => exact ⟨_, hplain "Integer" [] rfl rfl, fun at_ => .pure _⟩
  | float => exact ⟨_, hplain "Float" [] rfl rfl, fun at_ => .pure _⟩
  | double => exact ⟨_, hplain "Double" [] rfl rfl, fun at_ => .pure _⟩
  | long => exact ⟨_, hplain "Long" [] rfl rfl, fun at_ => .pure _⟩
  | null => exact ⟨_, hplain "Null" [] rfl rfl, fun at_ => .pure _⟩
  | uninitializedThis => exact ⟨_, hplain "UninitializedThis" [] rfl rfl, fun at_ => .pure _⟩

theorem exists_types {vs : List VerificationType} (hs : ∀ v ∈ vs, v.IsSound)
    (hp : ∀ v ∈ vs, v ≠ .object none) : ∃ ns, vs.mapM ofType = .ok ns ∧
      ∀ at_, Reaches (ns.mapM (readType at_)) vs [] (vs.filterMap VerificationType.label?) := by
  obtain ⟨ns, hns, hread⟩ := exists_mapM
    (Q := fun v n => ∀ at_, Reaches (readType at_ n) v [] v.label?.toList)
    fun v hv => exists_type (hs v hv) (hp v hv)
  refine ⟨ns, hns, fun at_ => ?_⟩
  refine .of_eq (Reaches.mapM (D := fun _ => []) (R := fun v => v.label?.toList)
    (hread.flip.imp fun _ _ h => h at_)) ?_ ?_
  · exact List.flatMap_eq_nil_iff.2 fun _ _ => rfl
  · exact (List.filterMap_eq_flatMap_toList _ _).symm

theorem ofName?_name : ∀ kind ∈ FrameKind.all, FrameKind.ofName? kind.name = some kind := by decide

theorem exists_frame {f : Frame} (hs : f.IsSound)
    (hp : ∀ v ∈ f.locals ++ f.stack, v ≠ .object none) :
    ∃ n, ofFrame f = .ok n ∧ n.base = some "frame" ∧
      ∀ at_, Reaches (readFrame at_ n) f [] f.references := by
  obtain ⟨locals, hlocals, hreadLocals⟩ :=
    exists_types hs.locals fun v hv => hp v (List.mem_append_left _ hv)
  obtain ⟨stack, hstack, hreadStack⟩ :=
    exists_types hs.stack fun v hv => hp v (List.mem_append_right _ hv)
  obtain ⟨chop, hchop, hpiece, hreadChop⟩ := exists_intUnlessZero hs.chop "chop"
  let n := entity "frame" (some f.kind.name)
    ([group (some "locals") locals, group (some "stack") stack] ++ chop)
  have hn : n.HasParts ["locals", "stack", "chop"]
      [[group (some "locals") locals], [group (some "stack") stack], chop] [] :=
    ⟨by decide, .cons (isPiece_group _ _) (.cons (isPiece_group _ _) (.cons hpiece .nil)), nofun,
      by simp [n, entity]⟩
  have hframe : ofFrame f = .ok n := by
    unfold ofFrame
    rw [hlocals, Result.ok_bind, hstack, Result.ok_bind]
    exact hchop fun chop => pure (entity "frame" (some f.kind.name)
      ([group (some "locals") locals, group (some "stack") stack] ++ chop))
  refine ⟨n, hframe, rfl, fun at_ => ?_⟩
  obtain ⟨chop?, hchop?, hgetD⟩ := hreadChop n at_.path (hn.part? 2 rfl rfl)
  have hkind : n.name.bind FrameKind.ofName? = some f.kind := ofName?_name f.kind hs.kind
  have hlast : Reaches (pure ⟨f.kind, f.locals, f.stack, chop?.getD 0⟩) f [] [] := by
    rw [hgetD]
    exact .pure f
  unfold readFrame
  rw [hkind, grouped_of_part? (hn.part? 0 rfl rfl), grouped_of_part? (hn.part? 1 rfl rfl)]
  refine .of_eq ((hreadLocals at_).bind ((hreadStack at_).bind (.lift_bind hchop? hlast))) rfl ?_
  simp [Frame.references]

/-! ## Items -/

theorem hyphen_notMem_ofNat (k : Nat) : hyphen ∉ Text.ofNat k := by
  intro h
  have hrange := (Text.isDecimal_of_mem_ofNat h).range
  unfold hyphen at hrange
  omega

/-- The number in the name of an instruction is read as its code. -/
theorem opcodeOf?_opcodeName (op : Opcode) : opcodeOf? (some (opcodeName op)) = some op := by
  have hmnemonic : hyphen ∉ op.mnemonic := by cases op <;> decide
  have hsplit : Text.splitOn hyphen (opcodeName op) = [op.mnemonic, Text.ofNat op.code] := by
    rw [opcodeName, Text.splitOn_append_cons hmnemonic,
      Text.splitOn_of_notMem (hyphen_notMem_ofNat _)]
  have hlength : op.code < 10 ^ Text.maxNumeralLength :=
    op.code_lt.trans_le ((by decide : Opcode.count ≤ 10 ^ 3).trans
      (Nat.pow_le_pow_right (by decide) (by decide)))
  have hnonneg : ¬ (op.code : Int) < 0 := by omega
  simp [opcodeOf?, hsplit, Text.toInt?_ofNat hlength, hnonneg, Opcode.ofCode?_code]

theorem exists_item {i : Item} (hs : i.IsSound) (hp : i.IsProper) :
    ∃ n, ofItem i = .ok n ∧ ∀ at_, Reaches (readItem at_ n) i i.label?.toList i.references := by
  cases i with
  | label l =>
    obtain ⟨n, hn, hl, -⟩ := exists_labelLeaf l none
    exact ⟨n, hn, fun at_ => .of_pos hl.base ((reaches_readDefinition hl.labelOf).bind_pure _)⟩
  | line k =>
    obtain ⟨m, hm, hk, -⟩ := exists_intLeaf hs none
    refine ⟨entity "line-number" none [m], by simp [ofItem, hm], fun at_ => ?_⟩
    have hbase : (entity "line-number" none [m]).base = some "line-number" := rfl
    unfold readItem
    rw [hbase]
    exact .of_neg (by decide) (.of_pos rfl
      (.lift_bind (operand_eq rfl) (.lift_bind hk.intOf (.pure _))))
  | frame f =>
    obtain ⟨n, hn, hbase, hread⟩ := exists_frame hs hp
    refine ⟨n, hn, fun at_ => ?_⟩
    unfold readItem
    rw [hbase]
    exact .of_neg (by decide) (.of_neg (by decide) (.of_pos rfl ((hread at_).bind_pure _)))
  | instruction i =>
    obtain ⟨children, hchildren, hread⟩ := exists_operands hs hp
    let n := entity "opcode" (some (opcodeName i.opcode)) children
    refine ⟨n, by simp [ofItem, hchildren, n], fun at_ => ?_⟩
    have hbase : n.base = some "opcode" := rfl
    have hopcode : opcodeOf? n.name = some i.opcode := opcodeOf?_opcodeName i.opcode
    unfold readItem
    rw [hbase, hopcode]
    exact .of_neg (by decide) (.of_neg (by decide) (.of_neg (by decide)
      (.of_pos rfl ((hread at_ n rfl).bind_pure _))))

/-- The items of a body define its labels and refer to those of the items. -/
theorem exists_items {body : List Item} (hs : ∀ i ∈ body, i.IsSound) (hp : ∀ i ∈ body, i.IsProper) :
    ∃ ns, body.mapM ofItem = .ok ns ∧ ∀ (at_ : Location) (n : Node), n.children = ns →
      Reaches (readItems at_ n) body (definitions body) (body.flatMap Item.references) := by
  obtain ⟨ns, hns, hread⟩ := exists_mapM
    (Q := fun i n => ∀ at_, Reaches (readItem at_ n) i i.label?.toList i.references)
    fun i hi => exists_item (hs i hi) (hp i hi)
  refine ⟨ns, hns, fun at_ n hn => ?_⟩
  have hzip : List.Forall₂ (fun p i => Reaches (readItem (at_.item p.2) p.1) i i.label?.toList
      i.references) ns.zipIdx body := by
    refine List.forall₂_iff_get.2 ⟨by simp [hread.length_eq], fun k h₁ h₂ => ?_⟩
    simpa using hread.get h₂ (by simpa using h₁) (at_.item k)
  unfold readItems
  rw [hn]
  refine .of_eq (Reaches.mapM (D := fun i => i.label?.toList) (R := Item.references) hzip) ?_ rfl
  exact (List.filterMap_eq_flatMap_toList _ _).symm

end ClassTree.Tree
