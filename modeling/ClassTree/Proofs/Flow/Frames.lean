/-
# ClassTree.Proofs.Flow.Frames — which frames are computed, and what they stand for

A frame stands for locals and a stack, given the locals of the frame before. Frames are computed for
the instructions that control reaches by anything but falling through from the one before, in order;
and each of them, expanded after the frames before it, stands for the recorded state.
-/
import ClassTree.Encoding.Layout
import ClassTree.Flow.Frames
import ClassTree.Proofs.Flow.Origin

namespace ClassTree

/-! ## Expansion -/

namespace Frame

/-- The locals and the stack that a frame stands for after a frame with the locals `previous`. -/
def expand (previous : List VerificationType) (f : Frame) :
    Option (List VerificationType × List VerificationType) :=
  match f.kind with
  | .same | .sameExtended => some (previous, [])
  | .sameLocals1 | .sameLocals1Extended => some (previous, f.stack)
  | .chop =>
    if 0 ≤ f.chop ∧ f.chop ≤ previous.length then
      some (previous.take (previous.length - f.chop.toNat), [])
    else none
  | .append => some (previous ++ f.locals, [])
  | .full => some (f.locals, f.stack)
  | .unknown _ => none

/-- What frames stand for one after another; each one is expanded after the locals of the one
before, the first one after `entry`. -/
def expandAll (entry : List VerificationType) :
    List Frame → Option (List (List VerificationType × List VerificationType))
  | [] => some []
  | f :: rest => do
    let (locals, stack) ← f.expand entry
    return (locals, stack) :: (← expandAll locals rest)

end Frame

namespace Flow

open Result (bind_eq_ok_iff)

/-! ## Points -/

/-- An instruction that needs a frame in the layout of a body: control may arrive there other than
from the instruction before. A far conditional jump is written as two, of which the first one jumps
to the instruction behind. -/
inductive Program.FramePoint (p : Program) (l : Encoding.Layout) : Nat → Prop
  | target {index position target : Nat} {i : Instruction Label} {label : Label}
    (hi : p.instructions[index]? = some (position, i)) (hlabel : label ∈ i.targets)
    (htarget : p.resolve label = .ok target) : FramePoint p l target
  | handler {r : Region} (hr : r ∈ p.regions) : FramePoint p l r.target
  | afterTerminal {index position : Nat} {i : Instruction Label}
    (hi : p.instructions[index]? = some (position, i)) (hterminal : i.opcode.isTerminal = true)
    (hlt : index + 1 < p.size) : FramePoint p l (index + 1)
  | afterFar {index position : Nat} {i : Instruction Label}
    (hi : p.instructions[index]? = some (position, i)) (hfar : l.isFar position = true)
    (hconditional : i.opcode.isConditional = true) (hlt : index + 1 < p.size) :
    FramePoint p l (index + 1)

/-! ### Landings -/

/-- The instructions of some items with their places, the first item standing at `start`. -/
def placedFrom (start : Nat) (items : List Item) : List (Nat × Instruction Label) :=
  (items.zipIdx start).filterMap fun (item, position) => item.instruction?.map fun i => (position, i)

@[simp] theorem placedFrom_nil (start : Nat) : placedFrom start [] = [] := rfl

@[simp] theorem placedFrom_instruction (start : Nat) (i : Instruction Label) (items : List Item) :
    placedFrom start (.instruction i :: items) = (start, i) :: placedFrom (start + 1) items := rfl

theorem placedFrom_marker (start : Nat) {item : Item} (h : item.instruction? = none)
    (items : List Item) : placedFrom start (item :: items) = placedFrom (start + 1) items := by
  unfold placedFrom
  rw [List.zipIdx_cons]
  refine List.filterMap_cons_none ?_
  simp only [h, Option.map_none]

/-- The places of those instructions that follow on one with a property; `behind` tells whether such
a one came before. -/
def following (far : Nat × Instruction Label → Bool) (behind : Bool) :
    List (Nat × Instruction Label) → List Nat
  | [] => []
  | i :: rest => (if behind then [i.1] else []) ++ following far (far i) rest

/-- Landings are the places behind far conditional jumps. -/
theorem landingsFrom_eq (l : Encoding.Layout) (index : Nat) (behind : Bool) (items : List Item)
    (acc : List Nat) :
    l.landingsFrom index behind items acc = acc.reverse ++
      following (fun i => l.isFar i.1 && i.2.opcode.isConditional) behind
        (placedFrom index items) := by
  induction items generalizing index behind acc with
  | nil => simp [Encoding.Layout.landingsFrom, placedFrom, following]
  | cons item items ih =>
    cases item with
    | instruction i =>
      rw [Encoding.Layout.landingsFrom, ih, placedFrom_instruction, following]
      cases behind <;> simp
    | label _ | line _ | frame _ =>
      show l.landingsFrom (index + 1) behind items acc = _
      rw [ih, placedFrom_marker index rfl]

/-- A place follows on an instruction with the property that comes directly before it. -/
theorem mem_following_iff {far : Nat × Instruction Label → Bool} {behind : Bool}
    {is : List (Nat × Instruction Label)} {position : Nat} :
    position ∈ following far behind is ↔
      (behind = true ∧ ∃ i, is[0]? = some (position, i)) ∨
        ∃ index before i, is[index]? = some before ∧ far before = true ∧
          is[index + 1]? = some (position, i) := by
  induction is generalizing behind with
  | nil => simp [following]
  | cons head rest ih =>
    obtain ⟨place, i⟩ := head
    rw [following, List.mem_append, ih]
    constructor
    · rintro (hmem | ⟨hfar, j, hj⟩ | ⟨index, before, j, hbefore, hfar, hj⟩)
      · cases behind with
        | false => cases hmem
        | true =>
          obtain rfl := List.mem_singleton.1 hmem
          exact .inl ⟨rfl, i, List.getElem?_cons_zero⟩
      · rw [← List.getElem?_cons_succ (a := (place, i))] at hj
        exact .inr ⟨0, (place, i), j, List.getElem?_cons_zero, hfar, hj⟩
      · rw [← List.getElem?_cons_succ (a := (place, i))] at hbefore hj
        exact .inr ⟨index + 1, before, j, hbefore, hfar, hj⟩
    · rintro (⟨rfl, j, hj⟩ | ⟨index, before, j, hbefore, hfar, hj⟩)
      · rw [List.getElem?_cons_zero] at hj
        cases hj
        exact .inl (List.mem_singleton.2 rfl)
      · rw [List.getElem?_cons_succ] at hj
        cases index with
        | zero =>
          rw [List.getElem?_cons_zero] at hbefore
          cases hbefore
          exact .inr (.inl ⟨hfar, j, hj⟩)
        | succ index =>
          rw [List.getElem?_cons_succ] at hbefore
          exact .inr (.inr ⟨index, before, j, hbefore, hfar, hj⟩)

theorem pairwise_placedFrom (start : Nat) (items : List Item) :
    (placedFrom start items).Pairwise (fun i j => i.1 < j.1) ∧
      ∀ i ∈ placedFrom start items, start ≤ i.1 := by
  induction items generalizing start with
  | nil =>
    rw [placedFrom_nil]
    exact ⟨.nil, List.forall_mem_nil _⟩
  | cons item items ih =>
    obtain ⟨hpairs, hge⟩ := ih (start + 1)
    cases item with
    | instruction i =>
      rw [placedFrom_instruction]
      refine ⟨.cons (fun j hj => hge j hj) hpairs, ?_⟩
      intro j hj
      rcases List.mem_cons.1 hj with rfl | hj
      · exact Nat.le_refl _
      · exact Nat.le_of_succ_le (hge j hj)
    | label _ | line _ | frame _ =>
      rw [placedFrom_marker start rfl]
      exact ⟨hpairs, fun j hj => Nat.le_of_succ_le (hge j hj)⟩

/-! ### Bounds -/

/-- Labels lead to instructions, or behind the last one: the index of a label is the number of
instructions before it, which is at most the number of all. -/
theorem le_of_labelsFrom {items : List Item} {count : Nat} {found : Std.HashMap Label Nat}
    {l : Label} {i : Nat} (h : (Program.labelsFrom count found items)[l]? = some i) :
    found[l]? = some i ∨ i ≤ count + (items.filterMap Item.instruction?).length := by
  induction items generalizing count found with
  | nil => exact .inl h
  | cons item items ih =>
    cases item with
    | label l' =>
      rw [Program.labelsFrom] at h
      rcases ih h with hfound | hle
      · rw [Std.HashMap.getElem?_insert] at hfound
        split at hfound
        · cases hfound
          exact .inr (Nat.le_add_right _ _)
        · exact .inl hfound
      · exact .inr hle
    | instruction j =>
      rw [Program.labelsFrom] at h
      refine (ih h).imp_right fun hle => ?_
      show i ≤ count + ((items.filterMap Item.instruction?).length + 1)
      omega
    | line _ | frame _ =>
      have hskip (marker : Item) (h : marker.instruction? = none) (hl : marker.label? = none) :
          Program.labelsFrom count found (marker :: items) = Program.labelsFrom count found items := by
        cases marker <;> first | rfl | contradiction
      rw [hskip _ rfl rfl] at h
      exact ih h

variable {owner : Text} {m : Method} {p : Program}

/-- The program of a method has its instructions, labels and handlers. -/
theorem Program.ofMethod_eq_ok (h : Program.ofMethod owner m = .ok p) :
    p.instructions.toList = placedFrom 0 m.body ∧ p.owner = owner ∧ p.method = m ∧
      p.indexOf = Program.labelsFrom 0 {} m.body ∧
      List.Forall₂ (fun handler r => Program.regionOf p.indexOf (Program.placeOf owner m) handler =
        .ok r) m.handlers p.regions := by
  obtain ⟨regions, hregions, h⟩ := bind_eq_ok_iff.1 h
  cases h
  exact ⟨rfl, rfl, rfl, rfl, Result.mapM_eq_ok_iff.1 hregions⟩

theorem Program.size_eq (h : Program.ofMethod owner m = .ok p) :
    p.size = (m.body.filterMap Item.instruction?).length := by
  have hmap (items : List Item) (start : Nat) :
      (placedFrom start items).length = (items.filterMap Item.instruction?).length := by
    induction items generalizing start with
    | nil => rfl
    | cons item items ih =>
      cases item with
      | instruction i =>
        rw [placedFrom_instruction, List.length_cons, ih]
        rfl
      | label _ | line _ | frame _ =>
        rw [placedFrom_marker start rfl, ih]
        rfl
  rw [← hmap m.body 0, ← (ofMethod_eq_ok h).1]
  exact Array.length_toList.symm

/-- Labels lead to instructions, or behind the last one. -/
theorem Program.le_size_of_lookup (h : Program.ofMethod owner m = .ok p) {place : Text} {l : Label}
    {index : Nat} (hindex : Program.lookup p.indexOf place l = .ok index) : index ≤ p.size := by
  unfold Program.lookup at hindex
  split at hindex
  · next i hi =>
    cases hindex
    rw [(ofMethod_eq_ok h).2.2.2.1] at hi
    rcases le_of_labelsFrom hi with hempty | hle
    · rw [Std.HashMap.getElem?_empty] at hempty
      cases hempty
    · rw [size_eq h]
      omega
  · cases hindex

/-- Handlers lead to instructions, or behind the last one. -/
theorem Program.target_le_size (h : Program.ofMethod owner m = .ok p) {r : Region}
    (hr : r ∈ p.regions) : r.target ≤ p.size := by
  obtain ⟨handler, -, hhandler⟩ := Result.exists_of_mem_right (ofMethod_eq_ok h).2.2.2.2 hr
  obtain ⟨start, -, hhandler⟩ := bind_eq_ok_iff.1 hhandler
  obtain ⟨stop, -, hhandler⟩ := bind_eq_ok_iff.1 hhandler
  obtain ⟨target, htarget, hhandler⟩ := bind_eq_ok_iff.1 hhandler
  cases hhandler
  exact le_size_of_lookup h htarget

/-! ### Points of a program -/

/-- The points that come from an instruction are its targets and, if it is terminal, the one after.
-/
theorem Program.mem_pointsAfter_iff {index : Nat} {i : Instruction Label} {points : List Nat}
    (h : p.pointsAfter index i = .ok points) (target : Nat) :
    target ∈ points ↔ (∃ label ∈ i.targets, p.resolve label = .ok target) ∨
      (i.opcode.isTerminal = true ∧ index + 1 < p.size ∧ target = index + 1) := by
  obtain ⟨targets, htargets, hrest⟩ := bind_eq_ok_iff.1 h
  have hall := Result.mapM_eq_ok_iff.1 htargets
  have hmem : target ∈ targets ↔ ∃ label ∈ i.targets, p.resolve label = .ok target := by
    constructor
    · exact Result.exists_of_mem_right hall
    · rintro ⟨label, hlabel, htarget⟩
      obtain ⟨found, hfound, heq⟩ := Result.exists_of_mem_left hall hlabel
      obtain rfl : target = found := Except.ok.inj (htarget.symm.trans heq)
      exact hfound
  cases hrest
  split
  · next hand =>
    rw [List.mem_append, List.mem_singleton, hmem]
    exact or_congr_right ⟨fun h => ⟨hand.1, hand.2, h⟩, fun h => h.2.2⟩
  · next hand =>
    rw [hmem]
    refine (or_iff_left ?_).symm
    rintro ⟨hterminal, hlt, -⟩
    exact hand ⟨hterminal, hlt⟩

/-- A place behind a far conditional jump is that of the next instruction. -/
theorem Program.mem_landings_iff (h : Program.ofMethod owner m = .ok p) {l : Encoding.Layout}
    {index position : Nat} {i : Instruction Label}
    (hi : p.instructions[index]? = some (position, i)) :
    position ∈ l.landings m.body ↔ ∃ before position' i', index = before + 1 ∧
      p.instructions[before]? = some (position', i') ∧ l.isFar position' = true ∧
      i'.opcode.isConditional = true := by
  have hlist := (ofMethod_eq_ok h).1
  have hpairs := (pairwise_placedFrom 0 m.body).1
  rw [← hlist] at hpairs
  unfold Encoding.Layout.landings
  rw [landingsFrom_eq, List.reverse_nil, List.nil_append, mem_following_iff, ← hlist]
  simp only [Bool.false_eq_true, false_and, false_or, Array.getElem?_toList, Bool.and_eq_true]
  constructor
  · rintro ⟨before, ⟨position', i'⟩, j, hbefore, ⟨hfar, hconditional⟩, hj⟩
    refine ⟨before, position', i', ?_, hbefore, hfar, hconditional⟩
    -- no two instructions stand at one place
    have hlt {a b : Nat} {i j : Instruction Label} (ha : p.instructions[a]? = some (position, i))
        (hb : p.instructions[b]? = some (position, j)) : ¬ a < b := by
      intro hab
      rw [← Array.getElem?_toList] at ha hb
      obtain ⟨ha', haeq⟩ := List.getElem?_eq_some_iff.1 ha
      obtain ⟨hb', hbeq⟩ := List.getElem?_eq_some_iff.1 hb
      have := List.pairwise_iff_getElem.1 hpairs a b ha' hb' hab
      rw [haeq, hbeq] at this
      exact Nat.lt_irrefl _ this
    have := hlt hi hj
    have := hlt hj hi
    omega
  · rintro ⟨before, position', i', rfl, hbefore, hfar, hconditional⟩
    exact ⟨before, (position', i'), i, hbefore, ⟨hfar, hconditional⟩, hi⟩

/-- The instructions that get a frame, from those that other instructions and handlers lead to. -/
theorem Program.framePoints_eq_ok {p : Program} {reached : List (List Nat)}
    (h : p.instructions.toList.zipIdx.mapM (fun x => p.pointsAfter x.2 x.1.2) = .ok reached) :
    p.framePoints [] = .ok ((List.range (p.size + 1)).filter
      (reached.flatten ++ p.regions.map Region.target).contains) := by
  have hextras : (p.instructions.toList.zipIdx.filterMap fun x => if (Std.HashSet.ofList
      ([] : List Int)).contains (x.1.1 : Int) then some x.2 else none) = [] := by
    simp
  have hpoints : p.framePoints [] = .ok ((List.range (p.size + 1)).filter fun index =>
      (Std.HashSet.ofList (reached.flatten ++ p.regions.map Region.target ++ [])).contains index) := by
    refine bind_eq_ok_iff.2 ⟨reached, h, ?_⟩
    rw [← hextras]
    rfl
  simpa only [List.append_nil, Std.HashSet.contains_ofList] using hpoints

/-- The sizes and frames of a method, from its analysis. -/
theorem computeFrames_eq_ok {p : Program} {s : Solver} {locals : Nat} {extra : List Int}
    {frames : List (Nat × Frame)} (hprogram : Program.ofMethod owner m = .ok p)
    (hrun : Solver.run p = .ok s) (hlocals : maxLocals m = .ok locals)
    (hframes : p.frames s extra = .ok frames) :
    computeFrames owner m extra = .ok (⟨s.maxStack, locals⟩, frames) := by
  simp only [computeFrames, hprogram, hrun, hlocals, hframes, Result.ok_bind]
  rfl

/-- The instructions at some places in the body. -/
theorem Program.mem_filterMap_iff (p : Program) (places : List Nat) (index : Nat) :
    index ∈ p.instructions.toList.zipIdx.filterMap (fun ((position, _), index) =>
        if (Std.HashSet.ofList (places.map Int.ofNat)).contains (position : Int) then some index
        else none) ↔
      ∃ position i, p.instructions[index]? = some (position, i) ∧ position ∈ places := by
  rw [List.mem_filterMap]
  constructor
  · rintro ⟨⟨⟨position, i⟩, index'⟩, hin, heq⟩
    dsimp only at heq
    split at heq
    · next hcontains =>
      cases heq
      rw [List.mem_zipIdx_iff_getElem?, Array.getElem?_toList] at hin
      rw [Std.HashSet.contains_ofList, List.contains_iff_mem, List.mem_map] at hcontains
      obtain ⟨found, hfound, heq⟩ := hcontains
      obtain rfl := Int.ofNat.inj heq
      exact ⟨found, i, hin, hfound⟩
    · cases heq
  · rintro ⟨position, i, hin, hmem⟩
    refine ⟨((position, i), index), ?_, ?_⟩
    · rw [List.mem_zipIdx_iff_getElem?, Array.getElem?_toList]
      exact hin
    · refine if_pos ?_
      rw [Std.HashSet.contains_ofList, List.contains_iff_mem, List.mem_map]
      exact ⟨position, hmem, rfl⟩

/-- The instructions that get a frame are those that need one, in order. -/
theorem Program.mem_framePoints_iff (h : Program.ofMethod owner m = .ok p) {l : Encoding.Layout}
    {points : List Nat}
    (hpoints : p.framePoints ((l.landings m.body).map Int.ofNat) = .ok points) :
    points.Pairwise (· < ·) ∧ ∀ index, index ∈ points ↔ p.FramePoint l index := by
  obtain ⟨reached, hreached, hrest⟩ := bind_eq_ok_iff.1 hpoints
  have hall := Result.mapM_eq_ok_iff.1 hreached
  cases hrest
  refine ⟨List.pairwise_lt_range.filter _, ?_⟩
  intro index
  -- the points of all instructions, each with the number of its instruction
  have hflat : index ∈ reached.flatten ↔ ∃ before position i points,
      p.instructions[before]? = some (position, i) ∧ p.pointsAfter before i = .ok points ∧
        index ∈ points := by
    rw [List.mem_flatten]
    constructor
    · rintro ⟨points, hmem, hindex⟩
      obtain ⟨⟨⟨position, i⟩, before⟩, hin, hp⟩ := Result.exists_of_mem_right hall hmem
      rw [List.mem_zipIdx_iff_getElem?, Array.getElem?_toList] at hin
      exact ⟨before, position, i, points, hin, hp, hindex⟩
    · rintro ⟨before, position, i, points, hin, hp, hindex⟩
      have hmem : ((position, i), before) ∈ p.instructions.toList.zipIdx := by
        rw [List.mem_zipIdx_iff_getElem?, Array.getElem?_toList]
        exact hin
      obtain ⟨found, hfound, heq⟩ := Result.exists_of_mem_left hall hmem
      obtain rfl : points = found := Except.ok.inj (hp.symm.trans heq)
      exact ⟨points, hfound, hindex⟩
  have hextra := p.mem_filterMap_iff (l.landings m.body) index
  rw [List.mem_filter, List.mem_range, Std.HashSet.contains_ofList, List.contains_iff_mem,
    List.mem_append, List.mem_append, hflat, List.mem_map]
  refine Iff.trans (and_congr_right fun _ => or_congr_right hextra) ?_
  constructor
  · rintro ⟨hle, (⟨before, position, i, points, hi, hp, hindex⟩ | ⟨r, hr, rfl⟩) |
      ⟨position, i, hi, hmem⟩⟩
    · rcases (mem_pointsAfter_iff hp index).1 hindex with ⟨label, hlabel, htarget⟩ |
        ⟨hterminal, hlt, rfl⟩
      · exact .target hi hlabel htarget
      · exact .afterTerminal hi hterminal hlt
    · exact .handler hr
    · obtain ⟨before, position', i', rfl, hbefore, hfar, hconditional⟩ :=
        (mem_landings_iff h hi).1 hmem
      exact .afterFar hbefore hfar hconditional (Array.getElem?_eq_some_iff.1 hi).1
  · intro hpoint
    have hpointsAfter {before position : Nat} {i : Instruction Label}
        (hi : p.instructions[before]? = some (position, i)) :
        ∃ points, p.pointsAfter before i = .ok points := by
      have hmem : ((position, i), before) ∈ p.instructions.toList.zipIdx := by
        rw [List.mem_zipIdx_iff_getElem?, Array.getElem?_toList]
        exact hi
      obtain ⟨found, -, heq⟩ := Result.exists_of_mem_left hall hmem
      exact ⟨found, heq⟩
    cases hpoint with
    | @target before position _ i label hi hlabel htarget =>
      obtain ⟨points, hp⟩ := hpointsAfter hi
      refine ⟨Nat.lt_succ_of_le (le_size_of_lookup h htarget), .inl (.inl ⟨before, position, i, points,
        hi, hp, (mem_pointsAfter_iff hp _).2 (.inl ⟨label, hlabel, htarget⟩)⟩)⟩
    | @handler r hr =>
      exact ⟨Nat.lt_succ_of_le (target_le_size h hr), .inl (.inr ⟨r, hr, rfl⟩)⟩
    | @afterTerminal before position i hi hterminal hlt =>
      obtain ⟨points, hp⟩ := hpointsAfter hi
      exact ⟨Nat.lt_succ_of_lt hlt, .inl (.inl ⟨before, position, i, points, hi, hp,
        (mem_pointsAfter_iff hp _).2 (.inr ⟨hterminal, hlt, rfl⟩)⟩)⟩
    | @afterFar before position i hi hfar hconditional hlt =>
      obtain ⟨⟨position', i'⟩, hnext⟩ : ∃ next, p.instructions[before + 1]? = some next :=
        ⟨_, Array.getElem?_eq_getElem hlt⟩
      exact ⟨Nat.lt_succ_of_lt hlt, .inr ⟨position', i', hnext, (mem_landings_iff h hnext).2
        ⟨before, position, i, rfl, hi, hfar, hconditional⟩⟩⟩

end Flow

end ClassTree
