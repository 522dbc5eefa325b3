/-
# ClassTree.Proofs.Flow.Labels — the analysis does not stumble over labels

Two kinds of failure are about labels: one that is defined twice, and one that nobody defines. The
analysis looks labels up in two places only, at the targets of instructions and at the ends of
handlers. Where a body defines all of those, whatever else may go wrong with it is no fault of a
label.
-/
import ClassTree.Flow.Frames
import ClassTree.Proofs.Class.Sound
import ClassTree.Proofs.Descriptor
import ClassTree.Proofs.Flow.Invariant
import ClassTree.Proofs.Flow.Origin

namespace ClassTree

/-- A failure that is about a label: it is defined twice, or it is referred to and not defined. -/
def Error.isAboutLabel : Error → Bool
  | .danglingLabel _ _ | .duplicateLabel _ _ => true
  | _ => false

namespace Result

variable {α β : Type}

/-- A step does not fail over a label. -/
class SparesLabels (x : Result α) : Prop where
  spares : ∀ {e : Error}, x = .error e → e.isAboutLabel = false

instance spares_ok (a : α) : SparesLabels (.ok a : Result α) := ⟨nofun⟩

instance spares_pure (a : α) : SparesLabels (pure a : Result α) := spares_ok a

instance spares_unverified (cause : Unverified) (place : Option Text) (position : Option Nat) :
    SparesLabels (.error (.unverified cause place position) : Result α) := ⟨by rintro _ ⟨⟩; rfl⟩

instance spares_undefined (cause : Undefined) :
    SparesLabels (.error (.undefined cause) : Result α) := ⟨by rintro _ ⟨⟩; rfl⟩

instance spares_invalid (cause : Invalid) :
    SparesLabels (.error (.invalid cause) : Result α) := ⟨by rintro _ ⟨⟩; rfl⟩

instance spares_throw_undefined (cause : Undefined) :
    SparesLabels (throw (.undefined cause) : Result α) := spares_undefined cause

/-- Steps in a row, the second of which may use what the first one has given. -/
theorem SparesLabels.bind_of {x : Result α} {f : α → Result β} (hx : SparesLabels x)
    (hf : ∀ a, x = .ok a → SparesLabels (f a)) : SparesLabels (x >>= f) where
  spares := by
    intro e h
    rcases bind_eq_error_iff.1 h with h | ⟨a, ha, h⟩
    · exact hx.spares h
    · exact (hf a ha).spares h

instance spares_bind (x : Result α) (f : α → Result β) [hx : SparesLabels x]
    [hf : ∀ a, SparesLabels (f a)] : SparesLabels (x >>= f) := hx.bind_of fun a _ => hf a

instance spares_ite (c : Prop) [Decidable c] (x y : Result α) [hx : SparesLabels x]
    [hy : SparesLabels y] : SparesLabels (if c then x else y) := by
  split
  · exact hx
  · exact hy

theorem spares_mapM_of_mem {f : α → Result β} {l : List α} (h : ∀ a ∈ l, SparesLabels (f a)) :
    SparesLabels (l.mapM f) := by
  induction l with
  | nil =>
    rw [List.mapM_nil]
    infer_instance
  | cons a l ih =>
    rw [List.mapM_cons]
    have := h a (by simp)
    have := ih fun b hb => h b (by simp [hb])
    infer_instance

theorem spares_foldlM_of_mem {f : β → α → Result β} {l : List α}
    (h : ∀ a ∈ l, ∀ b, SparesLabels (f b a)) (b : β) : SparesLabels (l.foldlM f b) := by
  induction l generalizing b with
  | nil => exact spares_pure b
  | cons a l ih =>
    rw [List.foldlM_cons]
    have := h a (by simp) b
    have := ih fun a' ha' => h a' (by simp [ha'])
    infer_instance

theorem spares_forM_of_mem {f : α → Result PUnit} {l : List α} (h : ∀ a ∈ l, SparesLabels (f a)) :
    SparesLabels (l.forM f) := by
  induction l with
  | nil => exact spares_pure _
  | cons a l ih =>
    have := h a (by simp)
    have := ih fun b hb => h b (by simp [hb])
    show SparesLabels (f a >>= fun _ => l.forM f)
    infer_instance

end Result

namespace Flow

open Result

/-! ## Effects -/

instance spares_typeOf (descriptor : Text) : SparesLabels (typeOf descriptor) := by
  unfold typeOf
  split <;> infer_instance

namespace State

instance spares_pop (s : State) (count : Nat) : SparesLabels (s.pop count) := by
  unfold State.pop
  infer_instance

instance spares_drop (s : State) (count : Nat) : SparesLabels (s.drop count) := by
  unfold State.drop
  infer_instance

instance spares_read (s : State) (slot : Int) : SparesLabels (s.read slot) := by
  unfold State.read
  split
  · infer_instance
  · split <;> infer_instance

instance spares_put (locals : List VerificationType) (slot : Int) (v : VerificationType) :
    SparesLabels (State.put locals slot v) := by
  unfold State.put
  split <;> infer_instance

instance spares_isWideAt (locals : List VerificationType) (slot : Int) :
    SparesLabels (State.isWideAt locals slot) := by
  unfold State.isWideAt
  split <;> infer_instance

instance spares_spoil (locals : List VerificationType) (place slot : Int) :
    SparesLabels (State.spoil locals place slot) := by
  unfold State.spoil
  infer_instance

instance spares_store (s : State) (slot : Int) (v : VerificationType) :
    SparesLabels (s.store slot v) := by
  rw [State.store_eq]
  infer_instance

instance spares_merge (known incoming : State) : SparesLabels (known.merge incoming) := by
  unfold State.merge
  split
  · split <;> infer_instance
  · infer_instance

end State

/-- Storing what lies lowest among the values that were taken off the stack. -/
theorem spares_storeLast (size : Nat) (slot : Int) (s : State) :
    SparesLabels (do
      let (values, s) ← s.pop size
      match values.getLast? with
      | some v => s.store slot v
      | none => throw (.undefined .index)) := by
  refine (State.spares_pop s size).bind_of fun found _ => ?_
  obtain ⟨values, s⟩ := found
  dsimp only
  split <;> infer_instance

instance spares_access (op : Opcode) (slot : Int) (s : State) : SparesLabels (access op slot s) := by
  unfold access
  split
  case h_6 | h_7 | h_8 => exact spares_storeLast 1 slot s
  case h_9 | h_10 => exact spares_storeLast 2 slot s
  all_goals infer_instance

instance spares_copy (depth count : Nat) (s : State) : SparesLabels (copy depth count s) := by
  unfold copy
  infer_instance

instance spares_swap (s : State) : SparesLabels (swap s) := by
  unfold swap
  infer_instance

instance spares_replaceTop (s : State) (count : Nat) (v : VerificationType) :
    SparesLabels (replaceTop s count v) := by
  unfold replaceTop
  infer_instance

instance spares_loadElement (s : State) : SparesLabels (loadElement s) := by
  unfold loadElement
  refine (State.spares_pop s 2).bind_of fun found _ => ?_
  obtain ⟨values, s⟩ := found
  dsimp only
  split
  · split <;> infer_instance
  · infer_instance
  · infer_instance
  · infer_instance

instance spares_jump (op : Opcode) (s : State) : SparesLabels (jump op s) := by
  unfold jump
  infer_instance

instance spares_accessField (op : Opcode) (descriptor : Text) (s : State) :
    SparesLabels (accessField op descriptor s) := by
  unfold accessField
  split <;> infer_instance

instance spares_split (descriptor : Text) : SparesLabels (Descriptor.split descriptor) := by
  unfold Descriptor.split
  split
  · infer_instance
  · split
    · split <;> infer_instance
    · infer_instance

instance spares_arguments (descriptor : Text) : SparesLabels (Descriptor.arguments descriptor) where
  spares := by
    intro e h
    rcases Descriptor.arguments_error h with rfl | rfl <;> rfl

variable (p : Program)

instance spares_takeReceiver (op : Opcode) (name : Text) (s : State) :
    SparesLabels (takeReceiver p op name s) := by
  unfold takeReceiver
  split
  · infer_instance
  · refine (State.spares_pop s 1).bind_of fun found _ => ?_
    obtain ⟨values, s⟩ := found
    dsimp only
    split <;> infer_instance

instance spares_call (op : Opcode) (name descriptor : Text) (s : State) :
    SparesLabels (call p op name descriptor s) := by
  unfold call
  infer_instance

instance spares_aboutType (op : Opcode) (name : Option Text) (index : Nat) (s : State) :
    SparesLabels (aboutType op name index s) := by
  unfold aboutType
  split
  · infer_instance
  · cases name <;> infer_instance
  · infer_instance
  · infer_instance

instance spares_newArrays (descriptor : Option Text) (dimensions : Int) (s : State) :
    SparesLabels (newArrays descriptor dimensions s) := by
  unfold newArrays
  infer_instance

instance spares_shapeEffect (index : Nat) (i : Instruction Label) (s : State) :
    SparesLabels (shapeEffect p index i s) := by
  unfold shapeEffect
  split <;> infer_instance

/-- No effect of an instruction fails over a label. -/
instance spares_effect (index : Nat) (i : Instruction Label) (s : State) :
    SparesLabels (effect p index i s) := by
  unfold effect
  split
  · infer_instance
  · split
    · infer_instance
    · split
      · infer_instance
      · split
        · infer_instance
        · split <;> infer_instance

/-! ## Lookups -/

namespace Program

/-- All labels that the instructions refer to lead somewhere. -/
def Resolves : Prop := ∀ pair ∈ p.instructions, ∀ l ∈ pair.2.targets, l ∈ p.indexOf

theorem mem_labelsFrom {body : List Item} {l : Label} {count : Nat} {found : Std.HashMap Label Nat}
    (h : l ∈ definitions body ∨ l ∈ found) : l ∈ labelsFrom count found body := by
  induction body generalizing count found with
  | nil => simpa [definitions, labelsFrom] using h
  | cons item body ih =>
    cases item with
    | label l' =>
      refine ih ?_
      rw [Std.HashMap.mem_insert, beq_iff_eq]
      rcases h with h | h
      · rcases List.mem_cons.1 h with rfl | h
        · exact .inr (.inl rfl)
        · exact .inl h
      · exact .inr (.inr h)
    | instruction _ | line _ | frame _ => exact ih h

theorem spares_lookup {indexOf : Std.HashMap Label Nat} {l : Label} (h : l ∈ indexOf) (place : Text) :
    SparesLabels (lookup indexOf place l) := by
  unfold lookup
  rw [Std.HashMap.getElem?_eq_some_getElem h]
  infer_instance

/-- The program of a body that is closed is built, and everything in it leads somewhere. -/
theorem spares_ofMethod {m : Method} (h : Closed m.body m.handlers m.localVariables) (owner : Text) :
    SparesLabels (ofMethod owner m) := by
  have hregion : ∀ handler ∈ m.handlers,
      SparesLabels (regionOf (labelsFrom 0 {} m.body) (placeOf owner m) handler) := by
    intro handler hhandler
    have hlookup {l : Label} (hl : l ∈ handler.references) :
        SparesLabels (lookup (labelsFrom 0 {} m.body) (placeOf owner m) l) :=
      spares_lookup (mem_labelsFrom (.inl (h.handlers handler hhandler hl))) _
    have hstart := hlookup (l := handler.start) (by simp [Handler.references])
    have hstop := hlookup (l := handler.stop) (by simp [Handler.references])
    have htarget := hlookup (l := handler.target) (by simp [Handler.references])
    unfold regionOf
    infer_instance
  have := spares_mapM_of_mem hregion
  unfold ofMethod
  infer_instance

/-- In the program of a body that is closed all labels lead somewhere. -/
theorem resolves_of_ofMethod {owner : Text} {m : Method} {p : Program}
    (h : Closed m.body m.handlers m.localVariables) (hp : ofMethod owner m = .ok p) : p.Resolves := by
  obtain ⟨regions, -, hp⟩ := bind_eq_ok_iff.1 hp
  cases hp
  intro pair hpair l hl
  refine mem_labelsFrom (.inl ?_)
  obtain ⟨⟨item, position⟩, hitem, hpair⟩ := List.mem_filterMap.1 (List.mem_toArray.1 hpair)
  cases item with
  | instruction i =>
    cases hpair
    have hmem : .instruction i ∈ m.body := by
      obtain ⟨-, -, heq⟩ := List.mem_zipIdx hitem
      rw [heq]
      exact List.getElem_mem _
    exact h.items _ hmem hl
  | label _ | line _ | frame _ => cases hpair

variable {p}

theorem Resolves.spares_targets (h : p.Resolves) {index position : Nat} {i : Instruction Label}
    (hi : p.instructions[index]? = some (position, i)) : SparesLabels (i.targets.mapM p.resolve) :=
  spares_mapM_of_mem fun l hl => spares_lookup (h _ (Array.mem_of_getElem? hi) l hl) _

variable (p)

instance spares_refuse {α : Type} (index : Nat) (cause : Unverified) :
    SparesLabels (p.refuse index cause : Result α) := by
  unfold refuse
  infer_instance

instance spares_locate {α : Type} (index : Nat) (x : Result α) [hx : SparesLabels x] :
    SparesLabels (p.locate index x) := by
  unfold locate
  split
  · infer_instance
  · exact hx

instance spares_argumentSlots (types : List Text) : SparesLabels (argumentSlots types) := by
  have : SparesLabels (types.mapM fun type => do
      match ← typeOf type with
      | some v => return slotsOf v
      | none => throw (.undefined .slotType)) := by
    refine spares_mapM_of_mem fun type _ => (spares_typeOf type).bind_of fun found _ => ?_
    cases found <;> infer_instance
  unfold argumentSlots
  infer_instance

instance spares_entryLocals : SparesLabels p.entryLocals := by
  unfold entryLocals
  infer_instance

end Program

/-! ## Runs -/

namespace Solver

variable {p}

instance spares_stateAt (s : Solver) (index : Nat) : SparesLabels (s.stateAt index) := by
  unfold stateAt
  split <;> infer_instance

instance spares_flow (s : Solver) (index : Nat) (incoming : State) :
    SparesLabels (s.flow p index incoming) := by
  unfold flow
  split
  · split
    · infer_instance
    · next known _ =>
      split
      · next e he =>
        exact ⟨fun h => (Program.spares_locate p index (known.merge incoming)).spares
          (he.trans (congrArg _ (Except.error.inj h)))⟩
      · infer_instance
  · infer_instance

instance spares_flowToRegion (index : Nat) (s : Solver) (r : Region) :
    SparesLabels (flowToRegion p index s r) := by
  unfold flowToRegion
  split
  · split
    · next e he =>
      exact ⟨fun h => (spares_stateAt s index).spares (he.trans (congrArg _ (Except.error.inj h)))⟩
    · infer_instance
  · infer_instance

instance spares_flowToSuccessor (index : Nat) (out : State) (s : Solver) (target : Nat) :
    SparesLabels (flowToSuccessor p index out s target) := by
  unfold flowToSuccessor
  infer_instance

theorem spares_visit (hp : p.Resolves) (s : Solver) (index : Nat) :
    SparesLabels (s.visit p index) := by
  unfold visit
  split
  · infer_instance
  · next position i hi =>
    have hregions := spares_foldlM_of_mem (fun r (_ : r ∈ p.regions) s =>
      spares_flowToRegion (p := p) index s r) s
    refine hregions.bind_of fun s _ => ?_
    have hsuccessors : SparesLabels (p.successors index i) := by
      have := hp.spares_targets hi
      unfold Program.successors
      infer_instance
    have hflow (out : State) (targets : List Nat) (s : Solver) :
        SparesLabels (targets.foldlM (flowToSuccessor p index out) s) :=
      spares_foldlM_of_mem (fun target _ s => spares_flowToSuccessor index out s target) s
    unfold apply
    infer_instance

theorem spares_solve (hp : p.Resolves) (s : Solver) : SparesLabels (s.solve p) := by
  induction s using Solver.solve.induct p with
  | case1 s hnil =>
    rw [solve_of_nil hnil]
    infer_instance
  | case2 s index rest hcons e hfail =>
    rw [solve_of_refusal hcons hfail]
    exact ⟨fun h => (spares_visit hp _ index).spares (hfail.trans h)⟩
  | case3 s index rest hcons u hvisit ih =>
    rw [solve_of_visit hcons hvisit]
    exact ih

theorem spares_run (hp : p.Resolves) : SparesLabels (run p) := by
  have := spares_solve hp
  unfold run
  infer_instance

end Solver

/-! ## Sizes and frames -/

namespace Program

variable {p}

/-- The instructions that need a frame because of some instruction. -/
theorem spares_pointsAfter (hp : p.Resolves) : SparesLabels (p.instructions.toList.zipIdx.mapM
    fun ((_, i), index) => p.pointsAfter index i) := by
  refine spares_mapM_of_mem ?_
  intro pair hpair
  obtain ⟨⟨position, i⟩, index⟩ := pair
  have hi : p.instructions[index]? = some (position, i) := by
    obtain ⟨-, hlt, heq⟩ := List.mem_zipIdx hpair
    rw [← Array.getElem?_toList, List.getElem?_eq_some_iff]
    exact ⟨by simpa using hlt, by simpa using heq.symm⟩
  have := hp.spares_targets hi
  unfold pointsAfter
  infer_instance

theorem spares_frames (hp : p.Resolves) (s : Solver) (extra : List Int) :
    SparesLabels (p.frames s extra) := by
  have hcheck : SparesLabels (p.checkFrames s) := by
    refine spares_forM_of_mem fun pair _ => ?_
    obtain ⟨⟨position, i⟩, index⟩ := pair
    dsimp only
    split
    · infer_instance
    · split <;> infer_instance
  have hpoints : SparesLabels (p.framePoints extra) := by
    have := spares_pointsAfter hp
    unfold framePoints
    infer_instance
  have hframes (points : List Nat) (previous : List VerificationType) (acc : List (Nat × Frame)) :
      SparesLabels (p.framesAt s points previous acc) := by
    induction points generalizing previous acc with
    | nil => exact spares_ok _
    | cons index rest ih =>
      unfold framesAt
      infer_instance
  unfold frames
  infer_instance

end Program

instance spares_maxLocals (m : Method) : SparesLabels (maxLocals m) := by
  unfold maxLocals
  infer_instance

variable {m : Method}

theorem spares_computeMaxima (h : Closed m.body m.handlers m.localVariables) (owner : Text) :
    SparesLabels (computeMaxima owner m) := by
  refine (Program.spares_ofMethod h owner).bind_of fun p hp => ?_
  have := Solver.spares_run (Program.resolves_of_ofMethod h hp)
  infer_instance

/-- The frames of a body that is closed. -/
theorem spares_computeFrames (h : Closed m.body m.handlers m.localVariables) (owner : Text)
    (extra : List Int) : SparesLabels (computeFrames owner m extra) := by
  refine (Program.spares_ofMethod h owner).bind_of fun p hp => ?_
  have hresolves := Program.resolves_of_ofMethod h hp
  have := Solver.spares_run hresolves
  have := fun s => Program.spares_frames hresolves s extra
  infer_instance

end Flow

end ClassTree
