/-
# ClassTree.Proofs.Acceptance.StackMap — the stack map of a written method is read

A frame that chops or appends no local is written as a frame that keeps them all, so frames are read
if none of them chops or appends more than three. They are read at the offsets of their items, and
an uninitialized type is read with the offset of an item. Frames that are computed are of this sort.
-/
import ClassTree.Proofs.Class.Legible
import ClassTree.Proofs.Emission
import ClassTree.Proofs.VerifiedStackMap

namespace ClassTree

open Decoding Encoding Encoder
open ModifiedUtf8 (stored)

/-! ## Frames without a change of locals -/

namespace Frame

/-- The frame as it is written: one that chops or appends nothing keeps all locals. -/
def spelled (f : Frame) : Frame :=
  match f.kind with
  | .chop => if f.chop = 0 then { f with kind := .sameExtended } else f
  | .append => if f.locals = [] then { f with kind := .sameExtended } else f
  | _ => f

theorem types_spelled (f : Frame) : f.spelled.locals ++ f.spelled.stack = f.locals ++ f.stack := by
  unfold spelled
  split
  · split <;> rfl
  · split <;> rfl
  · rfl

/-- A legible frame is written as one that has the shape of its kind. -/
theorem IsLegible.hasShape_spelled {f : Frame} (h : f.IsLegible) : f.spelled.HasShape := by
  obtain ⟨kind, locals, stack, chop⟩ := f
  cases kind with
  | chop =>
    obtain ⟨hlow, hhigh⟩ : 0 ≤ chop ∧ chop ≤ 3 := h
    unfold spelled
    dsimp only
    split
    · trivial
    · show 1 ≤ chop ∧ chop ≤ 3
      omega
  | append =>
    have hle : locals.length ≤ 3 := h
    unfold spelled
    dsimp only
    split
    · trivial
    · next hne =>
      have hpos := List.length_pos_of_ne_nil hne
      exact ⟨hpos, hle⟩
  | _ => trivial

/-- A frame with the shape of its kind is legible. -/
theorem HasShape.isLegible {f : Frame} (h : f.HasShape) : f.IsLegible := by
  obtain ⟨kind, locals, stack, chop⟩ := f
  cases kind with
  | chop => exact ⟨by have := h.1; dsimp only at this ⊢; omega, h.2⟩
  | append => exact h.2
  | _ => trivial

end Frame

namespace Encoding

variable {P : Pool} {l : Layout} {place : Text} {t : Table}

/-- A frame is written as it is spelled. -/
theorem frame_spelled (position distance : Nat) (f : Frame) :
    frame l place position distance f.spelled = frame l place position distance f := by
  obtain ⟨kind, locals, stack, chop⟩ := f
  cases kind with
  | chop =>
    unfold Frame.spelled
    dsimp only
    split
    · next hzero =>
      subst hzero
      rfl
    · rfl
  | append =>
    unfold Frame.spelled
    dsimp only
    split
    · next hnil =>
      subst hnil
      have hall : all (verificationType l) [] = pure [] := by simp [all]
      simp only [frame, hall, pure_bind, List.append_nil, List.length_nil, bind_pure]
      rfl
    · rfl
  | _ => rfl

theorem AreFrames.spelled {next : Nat} {frames : List (Nat × Frame)} {parts : List Bytes}
    (h : AreFrames P l place next frames parts) :
    AreFrames P l place next (frames.map fun f => (f.1, f.2.spelled)) parts := by
  induction h with
  | nil next => exact .nil next
  | cons hnext hpart _ ih => exact .cons hnext (by rwa [frame_spelled]) ih

/-- A stack map is written as its frames are spelled. -/
theorem fixed_stackMap_spelled {frames : List (Nat × Frame)} {bytes : Bytes}
    (h : Fixed P (stackMap l place frames) bytes) :
    Fixed P (stackMap l place (frames.map fun f => (f.1, f.2.spelled))) bytes := by
  obtain ⟨count, parts, hcount, hparts, rfl⟩ := fixed_stackMap_iff.1 h
  refine fixed_stackMap_iff.2 ⟨count, parts, ?_, hparts.spelled, rfl⟩
  rw [List.length_map]
  exact hcount

/-! ## Places -/

/-- A type that is read with a place is read with that of an item. -/
theorem exists_of_readAs? {body : List Item} (hl : Fixed P (Layout.of body) l)
    {v : VerificationType} {p : Nat}
    (h : v.readAs? stored l = some (.uninitialized (.position p))) :
    ∃ position, p = l.offset position := by
  unfold VerificationType.readAs? at h
  split at h <;> try cases h
  · exact ⟨_, rfl⟩
  · next label =>
    obtain ⟨offset, hoffset, heq⟩ := Option.map_eq_some_iff.1 h
    cases heq
    obtain ⟨position, -, rfl⟩ := Layout.exists_of_resolve hl (Layout.resolve_eq_ok_iff.2 hoffset)
    exact ⟨position, rfl⟩

/-- A frame that is read refers to places of items only. -/
theorem exists_of_isReadAs {body : List Item} (hl : Fixed P (Layout.of body) l) {distance : Nat}
    {f f' : Frame} (h : f.IsReadAs stored l distance f') {v : VerificationType}
    (hv : v ∈ f'.locals ++ f'.stack) {p : Nat} (hp : v = .uninitialized (.position p)) :
    ∃ position, p = l.offset position := by
  subst hp
  have hmem {vs vs' : List VerificationType} (hvs : AreReadAs stored l vs vs')
      (hv : VerificationType.uninitialized (.position p) ∈ vs') : ∃ position, p = l.offset position := by
    obtain ⟨w, -, hw⟩ := Result.exists_of_mem_right hvs hv
    exact exists_of_readAs? hl hw
  cases h with
  | same | sameExtended | chop => cases hv
  | sameLocals1 _ _ _ hw | sameLocals1Extended _ _ _ hw =>
    rw [List.nil_append, List.mem_singleton] at hv
    exact exists_of_readAs? hl (hv ▸ hw)
  | append _ _ hlocals =>
    rw [List.append_nil] at hv
    exact hmem hlocals hv
  | full _ hlocals hstack =>
    rcases List.mem_append.1 hv with hv | hv
    · exact hmem hlocals hv
    · exact hmem hstack hv

/-- The frames of a stack map stand at the offsets of their items and refer to offsets of items. -/
structure IsPlacedFrame (l : Layout) (frames : List (Nat × Frame)) (raw : RawFrame) : Prop where
  offset : ∃ f ∈ frames, raw.offset = l.offset f.1
  types : ∀ v ∈ raw.frame.locals ++ raw.frame.stack, ∀ p, v = .uninitialized (.position p) →
    ∃ position, p = l.offset position

theorem AreReadBack.isPlacedFrame {body : List Item} (hl : Fixed P (Layout.of body) l) {next : Nat}
    {frames : List (Nat × Frame)} {raws : List RawFrame} (h : AreReadBack stored l next frames raws) :
    ∀ raw ∈ raws, IsPlacedFrame l frames raw := by
  induction h with
  | nil next => nofun
  | cons _ hframe _ ih =>
    intro raw hraw
    rcases List.mem_cons.1 hraw with rfl | hraw
    · exact ⟨⟨_, List.mem_cons_self .., rfl⟩, fun v hv p hp => exists_of_isReadAs hl hframe hv hp⟩
    · obtain ⟨⟨f, hf, hoffset⟩, htypes⟩ := ih raw hraw
      exact ⟨⟨f, List.mem_cons_of_mem _ hf, hoffset⟩, htypes⟩

/-! ## The frames of a method -/

section Computed

variable {p : Flow.Program} {owner : Text} {m : Method}

/-- A state is recorded for an instruction of the body. -/
theorem exists_instruction_of_run (hp : Flow.Program.ofMethod owner m = .ok p) {s : Flow.Solver}
    (hrun : Flow.Solver.run p = .ok s) {index : Nat} {known : Flow.State}
    (hknown : s.states[index]? = some (some known)) :
    ∃ position i, p.position? index = some position ∧ m.body[position]? = some (.instruction i) := by
  have hlt : index < p.size := by
    obtain ⟨hindex, -⟩ := Array.getElem?_eq_some_iff.1 hknown
    by_cases hsize : 0 < p.size
    · obtain ⟨_, -, hs, -⟩ := Flow.Solver.invariant_of_run hrun hsize
      exact hs.size ▸ hindex
    · obtain rfl : Flow.Solver.initial p = s := by
        simpa [Flow.Solver.run, Nat.eq_zero_of_not_pos hsize] using hrun
      simp [Flow.Solver.initial, Array.getElem?_replicate] at hknown
  have hmem : p.instructions[index] ∈ Flow.placedFrom 0 m.body := by
    rw [← (Flow.Program.ofMethod_eq_ok hp).1]
    exact Array.mem_toList_iff.2 (Array.getElem_mem hlt)
  obtain ⟨⟨item, position⟩, hitem, heq⟩ := List.mem_filterMap.1 hmem
  have hat := List.mem_zipIdx_iff_getElem?.1 hitem
  cases item with
  | instruction i =>
    refine ⟨position, i, ?_, hat⟩
    unfold Flow.Program.position?
    rw [Array.getElem?_eq_getElem hlt, ← Option.some.inj heq]
    rfl
  | _ => cases heq

/-- The frames of recorded states stand at the places of their instructions. -/
theorem exists_of_areComputed {previous : List VerificationType} {points : List Nat}
    {knowns : List Flow.State} {frames : List (Nat × Frame)}
    (h : p.AreComputed previous points knowns frames) :
    ∀ f ∈ frames, ∃ index ∈ points, f.1 = (p.position? index).getD 0 := by
  induction h with
  | nil => nofun
  | cons _ ih =>
    intro f hf
    rcases List.mem_cons.1 hf with rfl | hf
    · exact ⟨_, List.mem_cons_self .., rfl⟩
    · obtain ⟨index, hindex, heq⟩ := ih f hf
      exact ⟨index, List.mem_cons_of_mem _ hindex, heq⟩

end Computed

/-- The frames of a method are those of its body unless it is verified and has none. -/
theorem frames_eq_of_verified {owner : Text} {verify stackMaps : Bool} {m : Method} {sizes : Maxima}
    {frames : List (Nat × Frame)} (h : verified owner verify stackMaps m l = .ok (sizes, frames)) :
    frames = ownFrames m.body ∨ (verify = true ∧ stackMaps = true ∧ ownFrames m.body = []) := by
  unfold verified at h
  dsimp only at h
  split at h
  · next hcomputes =>
    rw [Bool.and_eq_true, Bool.and_eq_true, List.isEmpty_iff] at hcomputes
    exact .inr ⟨hcomputes.1.1, hcomputes.1.2, hcomputes.2⟩
  · have hown {chosen : Maxima} (h : (do
          if verify && stackMaps then
            checkLandings (Flow.Program.placeOf owner m) (l.landings m.body) 0 false m.body
          return (chosen, ownFrames m.body) : Result _) = .ok (sizes, frames)) :
        frames = ownFrames m.body := by
      split at h
      · obtain ⟨u, -, h⟩ := Result.bind_eq_ok_iff.1 h
        exact (Prod.mk.inj (Except.ok.inj h)).2.symm
      · exact (Prod.mk.inj (Except.ok.inj h)).2.symm
    left
    split at h
    · split at h
      · obtain ⟨computed, -, h⟩ := Result.bind_eq_ok_iff.1 h
        exact hown h
      · exact hown h
    · obtain ⟨computed, -, h⟩ := Result.bind_eq_ok_iff.1 h
      exact hown h

/-- A body has no frames if none are its own. -/
theorem notMem_of_ownFrames_eq_nil {body : List Item} (h : ownFrames body = []) (f : Frame) :
    Item.frame f ∉ body := by
  intro hf
  obtain ⟨position, hposition⟩ := List.mem_iff_getElem?.1 hf
  have hmem : (Item.frame f, position) ∈ body.zipIdx := List.mem_zipIdx_iff_getElem?.2 hposition
  cases List.filterMap_eq_nil_iff.1 h _ hmem

/-- A frame that can be read: it stands before an instruction, and it and its types have forms. -/
structure IsLegibleFrame (body : List Item) (f : Nat × Frame) : Prop where
  isFollowed : IsFollowed body f.1
  isLegible : f.2.IsLegible
  hasTag : ∀ v ∈ f.2.locals ++ f.2.stack, v.HasTag

theorem hasTag_of_isSound {v : VerificationType} (h : v.IsSound) : v.HasTag := by
  cases v with
  | irregular => exact h.elim
  | _ => simp [VerificationType.HasTag, VerificationType.tag]

/-- The frames of a legible method can be read, both those that the body brings and those that
verification has computed: their types are of a form that has a tag, and what they point to is an
instruction of the body. -/
theorem CodeParts.isLegibleFrame {owner : Text} {verify stackMaps : Bool} {m : Method}
    (parts : CodeParts owner verify stackMaps m P) (hbody : LegibleIn parts.layout m.body)
    (hsound : ∀ i ∈ m.body, i.IsSound) : ∀ f ∈ parts.frames, IsLegibleFrame m.body f := by
  intro f hf
  rcases frames_eq_of_verified parts.verified_eq with heq | ⟨rfl, rfl, hown⟩
  · -- a frame of the body
    rw [heq] at hf
    obtain ⟨⟨item, position⟩, hitem, hframe⟩ := List.mem_filterMap.1 hf
    have hat := List.mem_zipIdx_iff_getElem?.1 hitem
    cases item with
    | frame f' =>
      obtain rfl := Option.some.inj hframe
      obtain ⟨hfollowed, hlegible⟩ := hbody.frames position f' hat
      have hf' : f'.IsSound := hsound _ (List.mem_of_getElem? hat)
      refine ⟨hfollowed, hlegible, fun v hv => hasTag_of_isSound ?_⟩
      rcases List.mem_append.1 hv with hv | hv
      · exact hf'.locals v hv
      · exact hf'.stack v hv
    | _ => cases hframe
  · -- a frame of a recorded state
    obtain ⟨source, -, hcomputed⟩ := parts.exists_frameSource rfl (notMem_of_ownFrames_eq_nil hown)
    obtain ⟨hshape, htags⟩ := hcomputed.regular source.admitted_knowns f hf
    obtain ⟨index, hindex, hposition⟩ := exists_of_areComputed hcomputed f hf
    obtain ⟨known, -, hknown⟩ := Result.exists_of_mem_left source.recorded hindex
    obtain ⟨position, i, hat, hitem⟩ := exists_instruction_of_run source.ofMethod source.run hknown
    refine ⟨⟨i, ?_⟩, hshape.isLegible, htags⟩
    rw [hposition, hat, Option.getD_some]
    exact List.mem_of_mem_head? (List.head?_drop ▸ hitem)

/-- A stack map of legible frames is read. -/
theorem parses_readStackMap_of_isLegible (ht : Backs stored t P) {body : List Item}
    (hl : Fixed P (Layout.of body) l) {frames : List (Nat × Frame)} {bytes : Bytes}
    (hlegible : ∀ f ∈ frames, f.2.IsLegible)
    (htags : ∀ f ∈ frames, ∀ v ∈ f.2.locals ++ f.2.stack, v.HasTag)
    (h : Fixed P (stackMap l place frames) bytes) :
    Parses True (readStackMap t) bytes fun raws => ∀ raw ∈ raws, IsPlacedFrame l frames raw := by
  have hspelled {f : Nat × Frame} (hf : f ∈ frames.map fun f => (f.1, f.2.spelled)) :
      ∃ f' ∈ frames, f = (f'.1, f'.2.spelled) := by
    obtain ⟨f', hf', rfl⟩ := List.mem_map.1 hf
    exact ⟨f', hf', rfl⟩
  refine (parses_readStackMap ht ?_ ?_ (fixed_stackMap_spelled h)).imp fun raws hraws raw hraw => ?_
  · intro f hf
    obtain ⟨f', hf', rfl⟩ := hspelled hf
    exact (hlegible f' hf').hasShape_spelled
  · intro _ f hf v hv
    obtain ⟨f', hf', rfl⟩ := hspelled hf
    rw [Frame.types_spelled] at hv
    exact htags f' hf' v hv
  · obtain ⟨⟨f, hf, hoffset⟩, htypes⟩ := hraws.isPlacedFrame hl raw hraw
    obtain ⟨f', hf', rfl⟩ := hspelled hf
    exact ⟨⟨f', hf', hoffset⟩, htypes⟩

end Encoding

end ClassTree
