/-
# ClassTree.Proofs.Flow.Depth — bodies with a depth at every instruction

A body is laid out so that the operand stack has one depth at each instruction, however control gets
there. Then nothing is ever missing from the stack in the analysis. Nor do two heights meet where
control joins, with one exception. A subroutine takes its return address off the stack before it
returns, so the instruction after the call finds the stack as it was before the call. The analysis
lets the stack with the return address flow there too, and where that instruction is reached in
another way as well, the heights differ.
-/
import ClassTree.Proofs.Flow.Moment
import ClassTree.Proofs.Flow.StackUse

namespace ClassTree.Flow

open Result (bind_eq_error_iff)

/-! ## Depths -/

/-- An instruction takes its slots off a stack of its depth, and control arrives with what it
leaves. The instruction after the call of a subroutine finds the depth before the call. -/
structure Fits (p : Program) (d : Nat → Nat) (index : Nat) (i : Instruction Label)
    (pops pushes : Nat) : Prop where
  uses : Uses i pops pushes
  le_depth : pops ≤ d index
  branch : ∀ label ∈ i.targets, ∀ target, p.resolve label = .ok target → target < p.size →
    d target = d index - pops + pushes
  next : i.opcode.isTerminal = false → index + 1 < p.size →
    d (index + 1) = if i.opcode.isSubroutineCall then d index else d index - pops + pushes

/-- The instructions of a program have depths. -/
structure IsDepth (p : Program) (d : Nat → Nat) : Prop where
  entry : d 0 = 0
  handler : ∀ r ∈ p.regions, r.target < p.size → d r.target = 1
  fits : ∀ {index position i}, p.instructions[index]? = some (position, i) →
    ∃ pops pushes, Fits p d index i pops pushes

/-- Loads of references find references wherever the analysis comes to: a local that takes one slot,
and an array, if any is known, of objects or of arrays. -/
structure LoadsReferences (p : Program) : Prop where
  loaded : ∀ {index here slot v} {i : Instruction Label}, Interprets p index i here →
    access? i = some (.aload, slot) → here.read slot = .ok v → v.isWide = false
  element : ∀ {index here rest} {i : Instruction Label}, Interprets p index i here →
    i.opcode = .aaload →
    here.stack[1]? = some (.object (some (Descriptor.bracket :: rest))) →
    rest.head? = some 0x4C ∨ rest.head? = some Descriptor.bracket

/-- No instruction calls a subroutine. -/
def WithoutCalls (p : Program) : Prop :=
  ∀ (index position : Nat) (i : Instruction Label), p.instructions[index]? = some (position, i) →
    i.opcode.isSubroutineCall = false

variable {p : Program} {d : Nat → Nat}

theorem LoadsReferences.loadsNarrow (h : LoadsReferences p) {index : Nat} {i : Instruction Label}
    {here : State} (hinterprets : Interprets p index i here) : LoadsNarrow i here where
  loaded := fun _ _ haccess hread => h.loaded hinterprets haccess hread
  element := by
    intro hop rest harray
    cases rest with
    | nil => rcases h.element hinterprets hop harray with hhead | hhead <;> cases hhead
    | cons c tail =>
      rcases h.element hinterprets hop harray with hhead | hhead <;> cases hhead
      · exact ⟨_, rfl, rfl⟩
      · exact ⟨_, rfl, rfl⟩

/-! ## Heights at every moment -/

/-- The stack is as high as the depth says or higher, and as high if there are no subroutines. -/
def Reaches (p : Program) (d : Nat → Nat) (index : Nat) (s : State) : Prop :=
  index < p.size → d index ≤ s.height ∧ (WithoutCalls p → s.height = d index)

/-- The stack reaches the depths of all successors. -/
def ReachesOn (p : Program) (d : Nat → Nat) (index : Nat) (out : State) : Prop :=
  ∀ position i targets target, p.instructions[index]? = some (position, i) →
    p.successors index i = .ok targets → target ∈ targets → Reaches p d target out

/-- What an instruction leaves reaches the depths of its successors. -/
theorem Fits.reachesOn {index position : Nat} {i : Instruction Label} {pops pushes : Nat}
    (h : Fits p d index i pops pushes) (hi : p.instructions[index]? = some (position, i))
    {here out : State} (hhere : Reaches p d index here)
    (hout : out.height = here.height - pops + pushes) : ReachesOn p d index out := by
  intro position' i' targets target hi' htargets hmem hsize
  cases hi.symm.trans hi'
  obtain ⟨hle, heq⟩ := hhere (Array.getElem?_eq_some_iff.1 hi).1
  have hpops := h.le_depth
  rcases (Program.mem_successors_iff htargets target).1 hmem with ⟨label, hlabel, hresolve⟩ |
    ⟨hfalls, rfl⟩
  · have hdepth := h.branch label hlabel target hresolve hsize
    rw [hdepth, hout]
    exact ⟨by omega, fun hwithout => by rw [heq hwithout]⟩
  · have hdepth := h.next hfalls hsize
    rw [hdepth, hout]
    split
    · next hcall =>
      -- the return address is on the stack, on top of what the next instruction is to find
      obtain ⟨rfl, rfl⟩ := h.uses.of_isSubroutineCall hcall
      refine ⟨by omega, ?_⟩
      intro hwithout
      cases (hwithout _ _ _ hi).symm.trans hcall
    · exact ⟨by omega, fun hwithout => by rw [heq hwithout]⟩

theorem IsDepth.annotates (hd : IsDepth p d) (hloads : LoadsReferences p) :
    Annotates p (Reaches p d) (ReachesOn p d) where
  entry := by
    intro locals _ _
    rw [hd.entry]
    exact ⟨Nat.zero_le _, fun _ => rfl⟩
  merge := by
    intro index known incoming merged hknown _ hmerge hsize
    have hheight : merged.height = known.height := State.length_stack_of_merge hmerge
    rw [hheight]
    exact hknown hsize
  handler := by
    intro r index here hr _ _ _ hsize
    rw [hd.handler r hr hsize]
    exact ⟨Nat.le_refl 1, fun _ => rfl⟩
  effect := by
    intro index position i here out hi hinterprets hhere hout
    obtain ⟨pops, pushes, hfits⟩ := hd.fits hi
    have hle := (hhere (Array.getElem?_eq_some_iff.1 hi).1).1
    have hleaves : Leaves (here.height - pops + pushes) (Flow.effect p index i here) :=
      leaves_effect hfits.uses (Nat.le_trans hfits.le_depth hle) (hloads.loadsNarrow hinterprets)
    rw [hout] at hleaves
    exact hfits.reachesOn hi hhere hleaves
  edge := fun hi htargets hmem hout => hout _ _ _ _ hi htargets hmem

/-! ## Failures -/

/-- A failure that is about heights is so before its instruction is named. -/
theorem exists_isHeightError_of_locate {α : Type} {index : Nat} {x : Result α} {e : Error}
    (h : p.locate index x = .error e) (he : IsHeightError e) :
    ∃ e', x = .error e' ∧ IsHeightError e' := by
  unfold Program.locate at h
  split at h
  · cases h
    refine ⟨_, rfl, ?_⟩
    cases he
    · exact .underflow
    · exact .stackHeights
  · exact ⟨e, h, he⟩

/-- A label that leads nowhere is no matter of heights. -/
theorem not_isHeightError_of_successors {index : Nat} {i : Instruction Label} {e : Error}
    (h : p.successors index i = .error e) : ¬ IsHeightError e := by
  rcases bind_eq_error_iff.1 h with h | ⟨targets, -, h⟩
  · obtain ⟨label, -, h⟩ := Result.exists_of_mapM_eq_error h
    unfold Program.resolve Program.lookup at h
    split at h <;> cases h
    rintro ⟨⟩
  · cases h

/-- A merge fails over heights where they differ. -/
theorem height_ne_of_merge_eq_error {known incoming : State} {e : Error}
    (h : known.merge incoming = .error e) (he : IsHeightError e) :
    known.height ≠ incoming.height ∧
      e = .unverified (.stackHeights known.height incoming.height) none none := by
  unfold State.merge at h
  split at h
  · split at h <;> cases h
    cases he
  · next hne =>
    cases h
    exact ⟨hne, rfl⟩

theorem height_ne_of_flow_eq_error {s : Solver} {index : Nat} {incoming : State} {e : Error}
    (h : s.flow p index incoming = .error e) (he : IsHeightError e) :
    (∀ needed present place position, e ≠ .unverified (.underflow needed present) place position) ∧
      index < s.states.size ∧
      ∃ known, s.states[index]? = some (some known) ∧ known.height ≠ incoming.height := by
  rcases Solver.flow_eq_error h with ⟨-, rfl⟩ | ⟨known, hknown, hmerge⟩
  · cases he
  · obtain ⟨e', hmerge', he'⟩ := exists_isHeightError_of_locate hmerge he
    obtain ⟨hne, rfl⟩ := height_ne_of_merge_eq_error hmerge' he'
    refine ⟨?_, (Array.getElem?_eq_some_iff.1 hknown).1, known, hknown, hne⟩
    rw [hmerge'] at hmerge
    rintro needed present place position rfl
    cases hmerge

/-- No instruction of a program with depths finds too few slots. -/
theorem IsDepth.effect_error (hd : IsDepth p d) (hloads : LoadsReferences p) {index position : Nat}
    {i : Instruction Label} {here : State} {e : Error}
    (hi : p.instructions[index]? = some (position, i)) (hinterprets : Interprets p index i here)
    (hhere : Reaches p d index here) (h : p.locate index (effect p index i here) = .error e) :
    ¬ IsHeightError e := by
  intro he
  obtain ⟨e', heffect, he'⟩ := exists_isHeightError_of_locate h he
  obtain ⟨pops, pushes, hfits⟩ := hd.fits hi
  have hle := (hhere (Array.getElem?_eq_some_iff.1 hi).1).1
  have hleaves : Leaves (here.height - pops + pushes) (effect p index i here) :=
    leaves_effect hfits.uses (Nat.le_trans hfits.le_depth hle) (hloads.loadsNarrow hinterprets)
  rw [heffect] at hleaves
  exact hleaves he'

/-- A failure over heights is one where control joins, in a program with subroutines. -/
theorem IsDepth.of_isHeightError (hd : IsDepth p d) (hloads : LoadsReferences p) {e : Error}
    (h : Fails p e) (he : IsHeightError e) :
    (∀ needed present place position, e ≠ .unverified (.underflow needed present) place position) ∧
      ¬ WithoutCalls p := by
  have ha := hd.annotates hloads
  cases h with
  | @handler s index i r rs here e hs hstart hstop hhere hflow =>
    -- a handler is entered with one slot, whatever flows there
    obtain ⟨hclash, hsize, known, hknown, hne⟩ := height_ne_of_flow_eq_error hflow he
    refine ⟨hclash, ?_⟩
    intro hwithout
    have hr := hs.isSoundAt.task.2.1 List.mem_cons_self
    rw [hs.isSoundAt.size] at hsize
    have hheld := (ha.holdsAt hs).known hknown hsize
    exact hne ((hheld.2 hwithout).trans (hd.handler r hr hsize))
  | @effect s index i here e hs hhere heffect =>
    obtain ⟨-, -, position, hi⟩ := hs.isSoundAt.task
    have hhere := Solver.stateAt_eq_ok_iff.1 hhere
    have hreaches := (ha.holdsAt hs).known hhere
    exact absurd he (hd.effect_error hloads hi ⟨s, hs, hhere⟩ hreaches heffect)
  | successors _ hsuccessors => exact absurd he (not_isHeightError_of_successors hsuccessors)
  | offTheEnd _ _ => cases he
  | @successor s index target out targets e hs hsize hflow =>
    -- without subroutines both the known state and the new one have the depth of the successor
    obtain ⟨hclash, -, known, hknown, hne⟩ := height_ne_of_flow_eq_error hflow he
    refine ⟨hclash, ?_⟩
    intro hwithout
    obtain ⟨-, position, i, all, hi, hall, hsubset⟩ := hs.isSoundAt.task
    have hreaches := (ha.holdsAt hs).out rfl _ _ _ _ hi hall (hsubset List.mem_cons_self) hsize
    have hheld := (ha.holdsAt hs).known hknown hsize
    exact hne ((hheld.2 hwithout).trans (hreaches.2 hwithout).symm)

/-- Only an empty text is no descriptor of a value. -/
theorem typeOf_error {descriptor : Text} {e : Error} (h : typeOf descriptor = .error e) :
    e = .undefined .descriptorEnd := by
  unfold typeOf at h
  split at h
  · cases h
    rfl
  · dsimp only at h
    split at h
    · cases h
    split at h
    · cases h
    split at h
    · cases h
    split at h
    · cases h
    split at h
    · cases h
    split at h <;> cases h

/-- The arguments of a method are no matter of heights. -/
theorem not_isHeightError_of_entryLocals {e : Error} (h : p.entryLocals = .error e) :
    ¬ IsHeightError e := by
  rcases bind_eq_error_iff.1 h with h | ⟨types, -, h⟩
  · rcases Descriptor.arguments_error h with rfl | rfl <;> rintro ⟨⟩
  rcases bind_eq_error_iff.1 h with h | ⟨slots, -, h⟩
  · rcases bind_eq_error_iff.1 h with h | ⟨found, -, h⟩
    · obtain ⟨type, -, h⟩ := Result.exists_of_mapM_eq_error h
      rcases bind_eq_error_iff.1 h with h | ⟨v, -, h⟩
      · rw [typeOf_error h]
        rintro ⟨⟩
      · cases v <;> cases h
        rintro ⟨⟩
    · cases h
  · cases h

/-- **No false height errors.** In the analysis of a body with a depth at every instruction nothing
is ever missing from the stack, and two heights meet only if the body calls a subroutine. The height
of a state is the depth of its instruction as long as there is no call, since instructions change
both by the same number; behind a call the analysis lets the state of the subroutine flow to both of
its successors. -/
theorem run_ne_heightError (hd : IsDepth p d) (hloads : LoadsReferences p) :
    (∀ needed present place position,
      Solver.run p ≠ .error (.unverified (.underflow needed present) place position)) ∧
    (WithoutCalls p → ∀ known incoming place position,
      Solver.run p ≠ .error (.unverified (.stackHeights known incoming) place position)) := by
  have hheights {e : Error} (h : Solver.run p = .error e) (he : IsHeightError e) :
      (∀ needed present place position,
        e ≠ .unverified (.underflow needed present) place position) ∧ ¬ WithoutCalls p := by
    rcases fails_of_run h with h | h
    · exact absurd he (not_isHeightError_of_entryLocals h)
    · exact hd.of_isHeightError hloads h he
  constructor
  · intro needed present place position h
    exact (hheights h .underflow).1 _ _ _ _ rfl
  · intro hwithout known incoming place position h
    exact (hheights h .stackHeights).2 hwithout

/-! ## A body with depths -/

/-- A method that returns the first element of an array. -/
def elementMethod : Method where
  access := 0x8
  name := "f"
  descriptor := "([LA;)LA;"
  body := [.instruction (.plain .aload_0), .instruction (.plain .iconst_0),
    .instruction (.plain .aaload), .instruction (.plain .areturn)]

/-- The program of the method that returns an element. -/
def elementProgram : Program where
  owner := "A"
  method := elementMethod
  instructions := #[(0, .plain .aload_0), (1, .plain .iconst_0), (2, .plain .aaload),
    (3, .plain .areturn)]
  indexOf := {}
  regions := []

/-- The states of the method that returns an element. -/
def elementState : Nat → State
  | 0 => ⟨[instanceOf "[LA;"], []⟩
  | 1 => ⟨[instanceOf "[LA;"], [instanceOf "[LA;"]⟩
  | 2 => ⟨[instanceOf "[LA;"], [.integer, instanceOf "[LA;"]⟩
  | _ => ⟨[instanceOf "[LA;"], [instanceOf "A"]⟩

/-- The method that returns an element begins with the array. -/
theorem entryLocals_elementProgram :
    elementProgram.entryLocals = .ok [instanceOf "[LA;"] := by
  have hname : Descriptor.semicolon ∉ ("A" : Text) := by decide
  have htype : Descriptor.IsType "LA;" := .reference hname
  have hmethod : Descriptor.IsMethodOf ["[LA;"] elementProgram.method.descriptor := by
    refine ⟨?_, "LA;", .inl htype, rfl⟩
    intro type hmem
    obtain rfl := List.mem_singleton.1 hmem
    exact .array htype
  unfold Program.entryLocals
  rw [hmethod.arguments_eq]
  rfl

/-- The states of the method that returns an element are the ones that the analysis finds. -/
theorem annotates_elementState :
    Annotates elementProgram (fun index s => s = elementState index)
      (fun index out => index < 3 → out = elementState (index + 1)) where
  entry := by
    intro locals h
    cases h.symm.trans entryLocals_elementProgram
    rfl
  merge := by
    rintro index _ _ merged rfl rfl h
    cases h.symm.trans (State.absorbs_self _)
    rfl
  handler := nofun
  effect := by
    rintro index position i _ out hi - rfl hout hlt
    rcases index with _ | _ | _ | index
    · cases hi
      cases hout
      rfl
    · cases hi
      cases hout
      rfl
    · cases hi
      cases hout
      rfl
    · omega
  edge := by
    intro index position i out targets target hi htargets hmem hout
    have hlt : index < 4 := (Array.getElem?_eq_some_iff.1 hi).1
    obtain ⟨hfalls, rfl⟩ : i.opcode.isTerminal = false ∧ target = index + 1 := by
      rcases (Program.mem_successors_iff htargets target).1 hmem with ⟨label, hlabel, -⟩ | hnext
      · rcases index with _ | _ | _ | _ | index <;> cases hi <;> cases hlabel
      · exact hnext
    refine hout ?_
    rcases index with _ | _ | _ | _ | index
    · decide
    · decide
    · decide
    · cases hi
      cases hfalls
    · omega

/-- Depths of a body without jumps, instruction by instruction. -/
theorem Fits.of_plain {op : Opcode} {index pops pushes : Nat}
    (huses : plainUse? op = some (pops, pushes)) (hdepth : pops ≤ d index)
    (hnext : op.isTerminal = false → d (index + 1) = d index - pops + pushes)
    (hcall : op.isSubroutineCall = false) : Fits p d index (.plain op) pops pushes where
  uses := .plain huses
  le_depth := hdepth
  branch := nofun
  next := by
    intro hfalls _
    rw [if_neg (by simp [Instruction.opcode, hcall])]
    exact hnext hfalls

/-- The analysis of the method that returns an element stumbles over no height. -/
theorem run_elementProgram_ne_heightError :
    Program.ofMethod "A" elementMethod = .ok elementProgram ∧
    (∀ needed present place position,
      Solver.run elementProgram ≠ .error (.unverified (.underflow needed present) place position)) ∧
    (∀ known incoming place position,
      Solver.run elementProgram ≠
        .error (.unverified (.stackHeights known incoming) place position)) := by
  have hdepth : IsDepth elementProgram fun index => (elementState index).height := by
    refine ⟨rfl, by rintro _ ⟨⟩, ?_⟩
    intro index position i hi
    rcases index with _ | _ | _ | _ | index <;> cases hi
    · exact ⟨0, 1, .of_plain rfl (by decide) (fun _ => rfl) rfl⟩
    · exact ⟨0, 1, .of_plain rfl (by decide) (fun _ => rfl) rfl⟩
    · exact ⟨2, 1, .of_plain rfl (by decide) (fun _ => rfl) rfl⟩
    · exact ⟨1, 0, .of_plain rfl (by decide) (by rintro ⟨⟩) rfl⟩
  have hknown {index : Nat} {i : Instruction Label} {here : State}
      (h : Interprets elementProgram index i here) :
      here = elementState index ∧
        ∃ position, elementProgram.instructions[index]? = some (position, i) := by
    obtain ⟨s, hs, hhere⟩ := h
    exact ⟨(annotates_elementState.holdsAt hs).known hhere, hs.isSoundAt.task.2.2⟩
  have hloads : LoadsReferences elementProgram := by
    constructor
    · intro index here slot v i hinterprets haccess hread
      obtain ⟨rfl, position, hi⟩ := hknown hinterprets
      rcases index with _ | _ | _ | _ | index <;> cases hi <;> cases haccess
      cases hread
      rfl
    · intro index here rest i hinterprets hop harray
      obtain ⟨rfl, position, hi⟩ := hknown hinterprets
      rcases index with _ | _ | _ | _ | index <;> cases hi <;> cases hop
      cases harray
      exact .inl rfl
  have hwithout : WithoutCalls elementProgram := by
    intro index position i hi
    rcases index with _ | _ | _ | _ | index <;> cases hi <;> rfl
  obtain ⟨hunderflow, hclash⟩ := run_ne_heightError hdepth hloads
  exact ⟨rfl, hunderflow, hclash hwithout⟩

/-! ## A body with a subroutine -/

/-- A method that calls a subroutine again and again. -/
def callMethod : Method where
  access := 0x8
  name := "f"
  descriptor := "()V"
  body := [.label ⟨"L"⟩, .instruction (.jump .jsr ⟨"S"⟩), .instruction (.jump .goto ⟨"L"⟩),
    .label ⟨"S"⟩, .instruction (.plain .astore_0), .instruction (.variable .ret 0)]

/-- The program of the method that calls a subroutine. -/
def callProgram : Program where
  owner := "A"
  method := callMethod
  instructions := #[(1, .jump .jsr ⟨"S"⟩), (2, .jump .goto ⟨"L"⟩), (4, .plain .astore_0),
    (5, .variable .ret 0)]
  indexOf := (({} : Std.HashMap Label Nat).insert ⟨"L"⟩ 0).insert ⟨"S"⟩ 2
  regions := []

/-- Only the subroutine finds a slot on the stack. -/
def callDepth (index : Nat) : Nat := if index = 2 then 1 else 0

/-- The labels of the method that calls a subroutine. -/
theorem resolve_callProgram :
    callProgram.resolve ⟨"L"⟩ = .ok 0 ∧ callProgram.resolve ⟨"S"⟩ = .ok 2 := by
  constructor
  · simp only [Program.resolve, Program.lookup, callProgram, Std.HashMap.getElem?_insert]
    rfl
  · simp only [Program.resolve, Program.lookup, callProgram, Std.HashMap.getElem?_insert]
    rfl

/-- Control goes from the call to the subroutine and behind the call, and from there back. -/
theorem successors_callProgram :
    callProgram.successors 0 (.jump .jsr ⟨"S"⟩) = .ok [2, 1] ∧
      callProgram.successors 1 (.jump .goto ⟨"L"⟩) = .ok [0] := by
  constructor
  · simp only [Program.successors, Instruction.targets, List.mapM_cons, List.mapM_nil,
      resolve_callProgram]
    rfl
  · simp only [Program.successors, Instruction.targets, List.mapM_cons, List.mapM_nil,
      resolve_callProgram]
    rfl

/-- The method that calls a subroutine has depths. -/
theorem isDepth_callProgram : IsDepth callProgram callDepth where
  entry := rfl
  handler := nofun
  fits := by
    intro index position i hi
    rcases index with _ | _ | _ | _ | index <;> cases hi
    · refine ⟨0, 1, .subroutine rfl, Nat.zero_le _, ?_, fun _ _ => rfl⟩
      intro label hlabel target htarget _
      obtain rfl := List.mem_singleton.1 hlabel
      cases htarget.symm.trans resolve_callProgram.2
      rfl
    · refine ⟨0, 0, .jump rfl, Nat.zero_le _, ?_, by rintro ⟨⟩⟩
      intro label hlabel target htarget _
      obtain rfl := List.mem_singleton.1 hlabel
      cases htarget.symm.trans resolve_callProgram.1
      rfl
    · exact ⟨1, 0, .of_plain rfl (by decide) (fun _ => rfl) rfl⟩
    · exact ⟨0, 0, .variable rfl, Nat.zero_le _, by rintro _ ⟨⟩, by rintro ⟨⟩⟩

/-- The method that calls a subroutine has depths, but the analysis finds two heights before its
first instruction: the return address that the subroutine takes off is still there. -/
theorem run_callProgram :
    Program.ofMethod "A" callMethod = .ok callProgram ∧
    IsDepth callProgram callDepth ∧ LoadsReferences callProgram ∧
    Solver.run callProgram =
      .error (.unverified (.stackHeights 0 1) (some "A.f()V") (some 1)) := by
  refine ⟨rfl, isDepth_callProgram, ?_, ?_⟩
  · have hcode {index : Nat} {i : Instruction Label} {here : State}
        (h : Interprets callProgram index i here) (slot : Int) :
        access? i ≠ some (.aload, slot) ∧ i.opcode ≠ .aaload := by
      obtain ⟨s, hs, -⟩ := h
      obtain ⟨-, -, position, hi⟩ := hs.isSoundAt.task
      rcases index with _ | _ | _ | _ | index <;> cases hi <;>
        exact ⟨by rintro ⟨⟩, by rintro ⟨⟩⟩
    constructor
    · intro index here slot v i hinterprets haccess
      exact absurd haccess (hcode hinterprets slot).1
    · intro index here rest i hinterprets hop
      exact absurd hop (hcode hinterprets 0).2
  · have hentry : callProgram.entryLocals = .ok [] := entryLocals_of_static rfl rfl
    let first : Solver := ⟨#[some ⟨[], []⟩, none, none, none], [], 0⟩
    let second : Solver :=
      ⟨#[some ⟨[], []⟩, some ⟨[], [.top]⟩, some ⟨[], [.top]⟩, none], [2], 1⟩
    have hcall : first.visit callProgram 0 = .ok { second with pending := [1, 2] } := by
      show first.apply callProgram 0 (.jump .jsr ⟨"S"⟩) = _
      unfold Solver.apply
      simp only [successors_callProgram]
      rfl
    have hback : second.visit callProgram 1 =
        .error (.unverified (.stackHeights 0 1) (some "A.f()V") (some 1)) := by
      show second.apply callProgram 1 (.jump .goto ⟨"L"⟩) = _
      unfold Solver.apply
      simp only [successors_callProgram]
      rfl
    unfold Solver.run
    rw [hentry]
    show Solver.solve callProgram { first with pending := [0] } = _
    rw [Solver.solve_of_visit rfl hcall, Solver.solve_of_refusal rfl hback]

end ClassTree.Flow
