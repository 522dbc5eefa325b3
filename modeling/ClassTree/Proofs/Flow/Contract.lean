/-
# ClassTree.Proofs.Flow.Contract — how the analysis fails

A method whose labels are defined and whose names are well formed either has its sizes and frames
computed or is refused for a reason of verification, with one exception: a handler whose label
stands behind the last instruction. A label there is looked for among the instructions. Jumps and
switches to it are refused, since they come through the check that control does not run off the end;
handlers do not come through it.
-/
import ClassTree.Proofs.Flow.Labels
import ClassTree.Proofs.Flow.Refusal
import ClassTree.Proofs.Flow.Solution

namespace ClassTree.Flow

open Descriptor (IsClassName IsValue IsReferenceName IsSignature)
open Result (bind_eq_error_iff bind_eq_ok_iff)

variable {p : Program}

/-! ## Labels -/

/-- The labels that the instructions and the handlers of a method refer to are defined. -/
structure DefinesLabels (m : Method) : Prop where
  targets : ∀ i, .instruction i ∈ m.body → i.targets ⊆ definitions m.body
  handlers : ∀ h ∈ m.handlers, h.references ⊆ definitions m.body

/-- A label stands behind the last instruction of a body. -/
def StandsAtEnd (body : List Item) (l : Label) : Prop :=
  ∃ before after, body = before ++ .label l :: after ∧ after.filterMap Item.instruction? = []

/-- No label stands at the end of a body that ends with an instruction. -/
theorem not_standsAtEnd {body : List Item} {i : Instruction Label}
    (hlast : body.getLast? = some (.instruction i)) (l : Label) : ¬ StandsAtEnd body l := by
  rintro ⟨before, after, rfl, hafter⟩
  rw [List.getLast?_append_of_ne_nil before (List.cons_ne_nil _ _)] at hlast
  rcases List.mem_cons.1 (List.mem_of_getLast? hlast) with heq | hmem
  · cases heq
  · have hi := List.filterMap_eq_nil_iff.1 hafter _ hmem
    cases hi

/-- A label that leads to an instruction stands somewhere, behind as many instructions. -/
theorem exists_of_labelsFrom {items : List Item} {count : Nat} {found : Std.HashMap Label Nat}
    {l : Label} {index : Nat} (h : (Program.labelsFrom count found items)[l]? = some index) :
    found[l]? = some index ∨ ∃ before after, items = before ++ .label l :: after ∧
      index = count + (before.filterMap Item.instruction?).length := by
  induction items generalizing count found with
  | nil => exact .inl h
  | cons item items ih =>
    cases item with
    | label l' =>
      rcases ih h with hfound | ⟨before, after, rfl, hindex⟩
      · rw [Std.HashMap.getElem?_insert] at hfound
        split at hfound
        · next heq =>
          cases hfound
          obtain rfl := beq_iff_eq.1 heq
          exact .inr ⟨[], items, rfl, rfl⟩
        · exact .inl hfound
      · exact .inr ⟨.label l' :: before, after, rfl, hindex⟩
    | instruction i =>
      rcases ih h with hfound | ⟨before, after, rfl, hindex⟩
      · exact .inl hfound
      · refine .inr ⟨.instruction i :: before, after, rfl, ?_⟩
        show index = count + ((before.filterMap Item.instruction?).length + 1)
        omega
    | line n =>
      rcases ih h with hfound | ⟨before, after, rfl, hindex⟩
      · exact .inl hfound
      · exact .inr ⟨.line n :: before, after, rfl, hindex⟩
    | frame f =>
      rcases ih h with hfound | ⟨before, after, rfl, hindex⟩
      · exact .inl hfound
      · exact .inr ⟨.frame f :: before, after, rfl, hindex⟩

variable {owner : Text} {m : Method}

/-- A handler that leads behind the last instruction has a label there. -/
theorem exists_standsAtEnd (hp : Program.ofMethod owner m = .ok p) {r : Region} (hr : r ∈ p.regions)
    (htarget : r.target = p.size) : ∃ h ∈ m.handlers, StandsAtEnd m.body h.target := by
  obtain ⟨-, -, -, hindexOf, hregions⟩ := Program.ofMethod_eq_ok hp
  obtain ⟨handler, hhandler, hregion⟩ := Result.exists_of_mem_right hregions hr
  obtain ⟨start, -, hregion⟩ := bind_eq_ok_iff.1 hregion
  obtain ⟨stop, -, hregion⟩ := bind_eq_ok_iff.1 hregion
  obtain ⟨target, hlookup, hregion⟩ := bind_eq_ok_iff.1 hregion
  cases hregion
  refine ⟨handler, hhandler, ?_⟩
  unfold Program.lookup at hlookup
  split at hlookup
  · next found hfound =>
    cases hlookup
    rw [hindexOf] at hfound
    rcases exists_of_labelsFrom hfound with hempty | ⟨before, after, hbody, hcount⟩
    · rw [Std.HashMap.getElem?_empty] at hempty
      cases hempty
    · refine ⟨before, after, hbody, ?_⟩
      -- as many instructions stand before the label as there are
      have hsize := Program.size_eq hp
      rw [hbody, List.filterMap_append, List.length_append] at hsize
      have hafter : (after.filterMap Item.instruction?).length = 0 := by
        show ((Item.label handler.target :: after).filterMap Item.instruction?).length = 0
        dsimp only at htarget
        omega
      exact List.length_eq_zero_iff.1 hafter
  · cases hlookup

theorem exists_lookup {body : List Item} {l : Label} (h : l ∈ definitions body) (place : Text) :
    ∃ index, Program.lookup (Program.labelsFrom 0 {} body) place l = .ok index := by
  have hmem : l ∈ Program.labelsFrom 0 {} body := Program.mem_labelsFrom (.inl h)
  unfold Program.lookup
  rw [Std.HashMap.getElem?_eq_some_getElem hmem]
  exact ⟨_, rfl⟩

namespace DefinesLabels

variable (h : DefinesLabels m)
include h

theorem exists_ofMethod (owner : Text) : ∃ p, Program.ofMethod owner m = .ok p := by
  cases hp : Program.ofMethod owner m with
  | ok p => exact ⟨p, rfl⟩
  | error e =>
    rcases bind_eq_error_iff.1 hp with hp | ⟨regions, -, hp⟩
    · obtain ⟨handler, hhandler, hregion⟩ := Result.exists_of_mapM_eq_error hp
      have hlookup {l : Label} (hl : l ∈ handler.references) :=
        exists_lookup (h.handlers handler hhandler hl) (Program.placeOf owner m)
      obtain ⟨start, hstart⟩ := hlookup (l := handler.start) (by simp [Handler.references])
      obtain ⟨stop, hstop⟩ := hlookup (l := handler.stop) (by simp [Handler.references])
      obtain ⟨target, htarget⟩ := hlookup (l := handler.target) (by simp [Handler.references])
      unfold Program.regionOf at hregion
      rw [hstart, hstop, htarget] at hregion
      cases hregion
    · cases hp

/-- In the program of a method all labels lead somewhere. -/
theorem resolves (hp : Program.ofMethod owner m = .ok p) {index position : Nat}
    {i : Instruction Label} (hi : p.instructions[index]? = some (position, i)) {label : Label}
    (hlabel : label ∈ i.targets) : ∃ target, p.resolve label = .ok target := by
  unfold Program.resolve
  rw [(Program.ofMethod_eq_ok hp).2.2.2.1]
  exact exists_lookup (h.targets i (mem_body_of_ofMethod hp hi) hlabel) p.place

end DefinesLabels

/-! ## The analysis -/

/-- A failure over verification, or over a handler behind the last instruction. -/
def IsRefusal (m : Method) (e : Error) : Prop :=
  IsUnverified e ∨ e = .undefined .index ∧ ∃ h ∈ m.handlers, StandsAtEnd m.body h.target

theorem unverified_of_flow {s : Solver} {index : Nat} {incoming : State} {e : Error}
    (hlt : index < s.states.size) (h : s.flow p index incoming = .error e) : IsUnverified e := by
  rcases Solver.flow_eq_error h with ⟨hle, -⟩ | ⟨known, -, hmerge⟩
  · omega
  · exact (Verifies.merge known incoming).locate e hmerge

/-- Looking for what has no frames is a matter of verification. -/
theorem verifies_checkFrames (s : Solver) : Verifies (p.checkFrames s) := by
  intro e h
  obtain ⟨pair, -, h⟩ := Result.exists_of_forM_eq_error h
  obtain ⟨⟨position, i⟩, index⟩ := pair
  dsimp only at h
  split at h
  · cases h
    trivial
  · split at h <;> cases h
    trivial

/-- Where there are frames all instructions have been reached. -/
theorem knows_of_checkFrames {s : Solver} (h : p.checkFrames s = .ok ()) :
    ∀ index < p.size, s.Knows index := by
  intro index hlt
  have hmem : (p.instructions[index], index) ∈ p.instructions.toList.zipIdx := by
    rw [List.mem_zipIdx_iff_getElem?, Array.getElem?_toList]
    exact Array.getElem?_eq_getElem hlt
  have hindex := Result.of_forM_eq_ok h hmem
  dsimp only at hindex
  split at hindex
  · cases hindex
  · split at hindex
    · next known hknown => exact ⟨known, hknown⟩
    · cases hindex

/-- Frames are missing where an instruction has not been reached. -/
theorem exists_of_framesAt_eq_error {s : Solver} {points : List Nat}
    {previous : List VerificationType} {acc : List (Nat × Frame)} {e : Error}
    (h : p.framesAt s points previous acc = .error e) :
    ∃ index ∈ points, ¬ s.Knows index ∧ e = .undefined .index := by
  induction points generalizing previous acc with
  | nil => cases h
  | cons index rest ih =>
    rcases bind_eq_error_iff.1 h with h | ⟨known, -, h⟩
    · refine ⟨index, List.mem_cons_self, ?_, ?_⟩
      · rintro ⟨known, hknown⟩
        cases (Solver.stateAt_eq_ok_iff.2 hknown).symm.trans h
      · unfold Solver.stateAt at h
        split at h <;> cases h
        rfl
    · obtain ⟨other, hother, hfound⟩ := ih h
      exact ⟨other, List.mem_cons_of_mem index hother, hfound⟩

/-- The points of frames lead to instructions where all instructions have been reached, handlers
behind the last instruction apart. -/
theorem knows_of_mem_framePoints (hp : Program.ofMethod owner m = .ok p) {s : Solver}
    (hrun : Solver.run p = .ok s) (hreached : ∀ index < p.size, s.Knows index) {extra : List Int}
    {points : List Nat}
    (hpoints : p.framePoints extra = .ok points) {index : Nat} (hindex : index ∈ points) :
    s.Knows index ∨ ∃ r ∈ p.regions, r.target = p.size := by
  obtain ⟨reached, hmapped, hrest⟩ := bind_eq_ok_iff.1 hpoints
  cases hrest
  rw [List.mem_filter, Std.HashSet.contains_ofList, List.contains_iff_mem, List.mem_append,
    List.mem_append, List.mem_map] at hindex
  obtain ⟨-, (hreachedIndex | ⟨r, hr, rfl⟩) | hextra⟩ := hindex
  · obtain ⟨found, hfound, hindex⟩ := List.mem_flatten.1 hreachedIndex
    obtain ⟨⟨⟨position, i⟩, before⟩, hin, hafter⟩ :=
      Result.exists_of_mem_right (Result.mapM_eq_ok_iff.1 hmapped) hfound
    rw [List.mem_zipIdx_iff_getElem?, Array.getElem?_toList] at hin
    rcases (Program.mem_pointsAfter_iff hafter index).1 hindex with ⟨label, hlabel, htarget⟩ |
      ⟨-, hlt, rfl⟩
    · obtain ⟨known, hknown⟩ := hreached before (Array.getElem?_eq_some_iff.1 hin).1
      obtain ⟨position', i', out, hin', -, hbranch, -⟩ :=
        (Solver.solution_of_run hrun).effect hknown
      cases hin.symm.trans hin'
      -- the instruction has been looked at, so its state has flowed to the target
      obtain ⟨target, htarget', hflow⟩ := hbranch label hlabel
      cases htarget.symm.trans htarget'
      obtain ⟨merged, hreceives⟩ := Solver.receives_of_flow hflow
      exact .inl hreceives.knows_index
    · exact .inl (hreached _ hlt)
  · by_cases hlt : r.target < p.size
    · exact .inl (hreached _ hlt)
    · exact .inr ⟨r, hr, Nat.le_antisymm (Program.target_le_size hp hr) (Nat.le_of_not_lt hlt)⟩
  · obtain ⟨⟨⟨position, i⟩, other⟩, hin, heq⟩ := List.mem_filterMap.1 hextra
    rw [List.mem_zipIdx_iff_getElem?, Array.getElem?_toList] at hin
    dsimp only at heq
    split at heq <;> cases heq
    exact .inl (hreached _ (Array.getElem?_eq_some_iff.1 hin).1)

section Methods

variable (hnames : NamesWell owner m) (hlabels : DefinesLabels m)
  (hp : Program.ofMethod owner m = .ok p)
include hnames hlabels hp

/-- Steps of the analysis fail in these ways only: as a refusal over verification, or at a handler
behind the last instruction. Here each kind of failure that the step lemmas allow is turned into
what a caller sees. -/
theorem isRefusal_of_fails {e : Error} (h : Fails p e) : IsRefusal m e := by
  have ha := hnames.annotates hp
  cases h with
  | @handler s index i r rs here e hs hstart hstop hhere hflow =>
    have hr := hs.isSoundAt.task.2.1 List.mem_cons_self
    -- nothing has checked that the handler leads to an instruction
    by_cases hlt : r.target < p.size
    · exact .inl (unverified_of_flow (hs.isSoundAt.size ▸ hlt) hflow)
    · have htarget : r.target = p.size := by
        have := Program.target_le_size hp hr
        omega
      rcases Solver.flow_eq_error hflow with ⟨-, rfl⟩ | ⟨known, hknown, -⟩
      · exact .inr ⟨rfl, exists_standsAtEnd hp hr htarget⟩
      · have hsize := (Array.getElem?_eq_some_iff.1 hknown).1
        rw [hs.isSoundAt.size] at hsize
        exact absurd hsize hlt
  | @effect s index i here e hs hhere heffect =>
    obtain ⟨-, -, position, hi⟩ := hs.isSoundAt.task
    have hheld := (ha.holdsAt hs).known (Solver.stateAt_eq_ok_iff.1 hhere)
    have hnamed := hnames.body i (mem_body_of_ofMethod hp hi)
    have howner : IsReferenceName p.owner := (Program.ofMethod_eq_ok hp).2.1 ▸ hnames.owner
    exact .inl (((composed_effect i).verifies hi hnamed howner hheld).locate e heffect)
  | @successors s index i e hs hsuccessors =>
    obtain ⟨-, -, position, hi⟩ := hs.isSoundAt.task
    rcases bind_eq_error_iff.1 hsuccessors with hsuccessors | ⟨targets, -, hsuccessors⟩
    · obtain ⟨label, hlabel, hfail⟩ := Result.exists_of_mapM_eq_error hsuccessors
      obtain ⟨target, htarget⟩ := hlabels.resolves hp hi hlabel
      cases htarget.symm.trans hfail
    · cases hsuccessors
  | offTheEnd _ _ => exact .inl trivial
  | @successor s index target out targets e hs hlt hflow =>
    exact .inl (unverified_of_flow (hs.isSoundAt.size ▸ hlt) hflow)

theorem isRefusal_of_run {e : Error} (h : Solver.run p = .error e) : IsRefusal m e := by
  rcases fails_of_run h with hentry | hfails
  · obtain ⟨locals, hlocals, -⟩ := hnames.exists_entryLocals hp
    cases hlocals.symm.trans hentry
  · exact isRefusal_of_fails hnames hlabels hp hfails

theorem isRefusal_of_frames {s : Solver} (hrun : Solver.run p = .ok s) {extra : List Int}
    {e : Error} (h : p.frames s extra = .error e) : IsRefusal m e := by
  rcases bind_eq_error_iff.1 h with h | ⟨_, hcheck, h⟩
  · exact .inl (verifies_checkFrames s e h)
  have hreached := knows_of_checkFrames hcheck
  rcases bind_eq_error_iff.1 h with h | ⟨entry, -, h⟩
  · obtain ⟨locals, hlocals, -⟩ := hnames.exists_entryLocals hp
    cases hlocals.symm.trans h
  rcases bind_eq_error_iff.1 h with h | ⟨points, hpoints, h⟩
  · rcases bind_eq_error_iff.1 h with h | ⟨reached, -, h⟩
    · obtain ⟨⟨⟨position, i⟩, index⟩, hin, hafter⟩ := Result.exists_of_mapM_eq_error h
      rw [List.mem_zipIdx_iff_getElem?, Array.getElem?_toList] at hin
      rcases bind_eq_error_iff.1 hafter with hafter | ⟨targets, -, hafter⟩
      · obtain ⟨label, hlabel, hfail⟩ := Result.exists_of_mapM_eq_error hafter
        obtain ⟨target, htarget⟩ := hlabels.resolves hp hin hlabel
        cases htarget.symm.trans hfail
      · cases hafter
    · cases h
  obtain ⟨index, hindex, hunknown, rfl⟩ := exists_of_framesAt_eq_error h
  rcases knows_of_mem_framePoints hp hrun hreached hpoints hindex with hknown | ⟨r, hr, htarget⟩
  · exact absurd hknown hunknown
  · exact .inr ⟨rfl, exists_standsAtEnd hp hr htarget⟩

end Methods

/-! ## Sizes and frames -/

/-- The locals of a method with proper names are counted. -/
theorem exists_maxLocals (hnames : NamesWell owner m) : ∃ size, maxLocals m = .ok size := by
  obtain ⟨types, result, hsplit, -, -⟩ := hnames.descriptor.exists_split
  have harguments : Descriptor.arguments m.descriptor = .ok types := by
    rw [Descriptor.arguments, hsplit]
    rfl
  unfold maxLocals
  rw [harguments]
  exact ⟨_, rfl⟩

/-- **How the analysis fails.** The sizes and the frames of a method with proper names and labels,
at whatever further places, are computed or refused over verification, unless a handler leads behind
the last instruction. Every access that the analysis makes to the stack, to the locals and to the
states of instructions is thereby accounted for: either the access is in range, or the check before
it has said why it is not. -/
theorem isRefusal_of_compute (hnames : NamesWell owner m) (hlabels : DefinesLabels m) :
    (∀ e, computeMaxima owner m = .error e → IsRefusal m e) ∧
      ∀ extra e, computeFrames owner m extra = .error e → IsRefusal m e := by
  obtain ⟨p, hp⟩ := hlabels.exists_ofMethod owner
  obtain ⟨size, hsize⟩ := exists_maxLocals hnames
  constructor
  · intro e h
    rw [computeMaxima, hp, Result.ok_bind, hsize] at h
    rcases bind_eq_error_iff.1 h with h | ⟨s, -, h⟩
    · exact isRefusal_of_run hnames hlabels hp h
    · cases h
  · intro extra e h
    rw [computeFrames, hp, Result.ok_bind, hsize] at h
    rcases bind_eq_error_iff.1 h with h | ⟨s, hrun, h⟩
    · exact isRefusal_of_run hnames hlabels hp h
    · rw [Result.ok_bind] at h
      rcases bind_eq_error_iff.1 h with h | ⟨frames, -, h⟩
      · exact isRefusal_of_frames hnames hlabels hp hrun h
      · cases h

/-- A method that returns an element of an array and throws what goes wrong. -/
def guardedMethod : Method where
  access := 0x8
  name := "f"
  descriptor := "([LA;)LA;"
  body := [.label ⟨"S"⟩, .instruction (.plain .aload_0), .instruction (.plain .iconst_0),
    .instruction (.plain .aaload), .instruction (.plain .areturn), .label ⟨"H"⟩,
    .instruction (.plain .athrow)]
  handlers := [{ start := ⟨"S"⟩, stop := ⟨"H"⟩, target := ⟨"H"⟩, type := none }]

/-- The method that throws what goes wrong is only ever refused over verification. -/
theorem isRefusal_guardedMethod :
    NamesWell "A" guardedMethod ∧ DefinesLabels guardedMethod ∧
      ∀ extra e, computeFrames "A" guardedMethod extra = .error e → IsUnverified e := by
  have hvalue : IsValue "LA;" := .reference (by decide : IsClassName "A")
  have hsignature : IsSignature guardedMethod.descriptor := by
    refine ⟨["[LA;"], "LA;", ?_, .inl hvalue, rfl⟩
    intro type htype
    obtain rfl := List.mem_singleton.1 htype
    exact .array hvalue
  have hnames : NamesWell "A" guardedMethod := by
    refine ⟨.inl (by decide), hsignature, ?_, ?_⟩
    · intro i hi
      simp only [guardedMethod, List.mem_cons, List.not_mem_nil, or_false, reduceCtorEq, false_or,
        Item.instruction.injEq] at hi
      rcases hi with rfl | rfl | rfl | rfl | rfl <;> trivial
    · intro handler hmem name hname
      obtain rfl := List.mem_singleton.1 hmem
      cases hname
  have hlabels : DefinesLabels guardedMethod := by
    refine ⟨?_, ?_⟩
    · intro i hi
      simp only [guardedMethod, List.mem_cons, List.not_mem_nil, or_false, reduceCtorEq, false_or,
        Item.instruction.injEq] at hi
      rcases hi with rfl | rfl | rfl | rfl | rfl <;> exact List.nil_subset _
    · intro handler hmem
      obtain rfl := List.mem_singleton.1 hmem
      decide
  refine ⟨hnames, hlabels, ?_⟩
  intro extra e h
  rcases (isRefusal_of_compute hnames hlabels).2 extra e h with hrefused | ⟨-, handler, -, hend⟩
  · exact hrefused
  · exact absurd hend (not_standsAtEnd (i := .plain .athrow) rfl _)

/-- A method with a handler behind its last instruction. -/
def endMethod : Method where
  access := 0x8
  name := "f"
  descriptor := "()V"
  body := [.label ⟨"S"⟩, .instruction (.plain .return_), .label ⟨"H"⟩]
  handlers := [{ start := ⟨"S"⟩, stop := ⟨"H"⟩, target := ⟨"H"⟩, type := none }]

/-- The program of the method with a handler behind its last instruction. -/
def endProgram : Program where
  owner := "A"
  method := endMethod
  instructions := #[(1, .plain .return_)]
  indexOf := (({} : Std.HashMap Label Nat).insert ⟨"S"⟩ 0).insert ⟨"H"⟩ 1
  regions := [⟨0, 1, 1, instanceOf Program.throwableName⟩]

/-- The labels of the method lead to its instruction and behind it. -/
theorem ofMethod_endMethod : Program.ofMethod "A" endMethod = .ok endProgram := by
  have hlookup : Program.lookup endProgram.indexOf "A.f()V" ⟨"S"⟩ = .ok 0 ∧
      Program.lookup endProgram.indexOf "A.f()V" ⟨"H"⟩ = .ok 1 := by
    constructor
    · simp only [Program.lookup, endProgram, Std.HashMap.getElem?_insert]
      rfl
    · simp only [Program.lookup, endProgram, Std.HashMap.getElem?_insert]
      rfl
  have hregions : endMethod.handlers.mapM (Program.regionOf endProgram.indexOf "A.f()V") =
      .ok endProgram.regions := by
    simp only [endMethod, List.mapM_cons, List.mapM_nil, Program.regionOf, hlookup]
    rfl
  refine bind_eq_ok_iff.2 ⟨endProgram.regions, hregions, rfl⟩

/-- The method with a handler behind its last instruction fails, though not over verification. -/
theorem computeMaxima_endMethod :
    NamesWell "A" endMethod ∧ DefinesLabels endMethod ∧
      computeMaxima "A" endMethod = .error (.undefined .index) := by
  have hsignature : IsSignature endMethod.descriptor :=
    ⟨[], "V", List.forall_mem_nil _, .inr rfl, rfl⟩
  have hbody {i : Instruction Label} (hi : .instruction i ∈ endMethod.body) :
      i = .plain .return_ := by
    simpa [endMethod] using hi
  refine ⟨⟨.inl (by decide), hsignature, ?_, ?_⟩, ⟨?_, ?_⟩, ?_⟩
  · intro i hi
    rw [hbody hi]
    trivial
  · intro handler hmem name hname
    obtain rfl := List.mem_singleton.1 hmem
    cases hname
  · intro i hi
    rw [hbody hi]
    exact List.nil_subset _
  · intro handler hmem
    obtain rfl := List.mem_singleton.1 hmem
    decide
  · have hentry : endProgram.entryLocals = .ok [] := entryLocals_of_static rfl rfl
    have hvisit : Solver.visit endProgram ⟨#[some ⟨[], []⟩], [], 0⟩ 0 =
        .error (.undefined .index) := rfl
    have hrun : Solver.run endProgram = .error (.undefined .index) := by
      unfold Solver.run
      rw [hentry]
      show Solver.solve endProgram ⟨#[some ⟨[], []⟩], [0], 0⟩ = _
      exact Solver.solve_of_refusal rfl hvisit
    rw [computeMaxima, ofMethod_endMethod, Result.ok_bind, hrun]
    rfl

end ClassTree.Flow
