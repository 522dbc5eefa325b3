/-
# ClassTree.Proofs.VerifiedStackMap — the stack map of a verified method

The stack map that is written for a verified method without frames of its own has a frame at the
code offset of each instruction that needs one, and at no other place. Expanded one after another
from the locals at the beginning of the method, the frames stand for the states that the analysis
recorded.
-/
import ClassTree.Proofs.Decoding.ClassFile
import ClassTree.Proofs.Encoding.Code
import ClassTree.Proofs.Flow.Frames
import ClassTree.Proofs.StackMap
import Mathlib

namespace ClassTree

open Decoding Encoding Encoder
open ModifiedUtf8 (stored IsPlain)

/-! ## Compressed frames -/

section Compress

variable {g : Text → Text} {l : Layout}

/-- A compressed frame has the shape of its kind. -/
theorem Flow.hasShape_compress (previous locals stack : List VerificationType) :
    (compress previous locals stack).HasShape := by
  unfold compress
  dsimp only
  split
  · split <;> trivial
  · split
    · split
      · next h =>
        show 1 ≤ (locals.drop previous.length).length ∧ (locals.drop previous.length).length ≤ 3
        rw [List.length_drop]
        omega
      · split
        · next h =>
          show 1 ≤ ((previous.length - locals.length : Nat) : Int) ∧
            ((previous.length - locals.length : Nat) : Int) ≤ 3
          omega
        · trivial
    · trivial

/-- A compressed frame has no other types than the ones it is for. -/
theorem Flow.mem_of_mem_compress {previous locals stack : List VerificationType}
    {v : VerificationType}
    (h : v ∈ (compress previous locals stack).locals ++ (compress previous locals stack).stack) :
    v ∈ locals ∨ v ∈ stack := by
  unfold compress at h
  dsimp only at h
  split at h
  · split at h
    · cases h
    · exact .inr (by simpa using h)
    · exact List.mem_append.1 h
  · split at h
    · split at h
      · exact .inl (List.mem_of_mem_drop (by simpa using h))
      · split at h
        · cases h
        · exact List.mem_append.1 h
    · exact List.mem_append.1 h

/-- What is read back for a compressed frame expands to what is read back for the locals and the
stack that the frame is for. -/
theorem Flow.exists_expand_eq {previous previous' locals stack : List VerificationType}
    (hprevious : AreReadAs g l previous previous') {distance : Nat} {f : Frame}
    (hf : (compress previous locals stack).IsReadAs g l distance f) :
    ∃ locals' stack', AreReadAs g l locals locals' ∧ AreReadAs g l stack stack' ∧
      f.expand previous' = some (locals', stack') := by
  have hfull (hf : Frame.IsReadAs g l distance ⟨.full, locals, stack, 0⟩ f) :
      ∃ locals' stack', AreReadAs g l locals locals' ∧ AreReadAs g l stack stack' ∧
        f.expand previous' = some (locals', stack') := by
    cases hf with
    | full _ hlocals hstack => exact ⟨_, _, hlocals, hstack, rfl⟩
  unfold compress at hf
  dsimp only at hf
  split at hf
  · next heq =>
    subst heq
    -- the same locals, with at most one type on the stack
    split at hf
    · refine ⟨previous', [], hprevious, .nil, ?_⟩
      cases hf
      by_cases hle : distance ≤ maxShortDistance
      · rw [if_pos hle]
        rfl
      · rw [if_neg hle]
        rfl
    · cases hf with
      | @sameLocals1 v v' _ _ _ hv =>
        refine ⟨previous', [v'], hprevious, .cons hv .nil, ?_⟩
        by_cases hle : distance ≤ maxShortDistance
        · rw [if_pos hle]
          rfl
        · rw [if_neg hle]
          rfl
    · exact hfull hf
  · split at hf
    · next hempty =>
      -- other locals and an empty stack: up to three locals are appended or chopped off
      obtain rfl := List.isEmpty_iff.1 hempty
      split at hf
      · next hlonger =>
        cases hf with
        | @append _ appended _ _ hdrop =>
          have heq : previous ++ locals.drop previous.length = locals := by
            conv_rhs => rw [← List.take_append_drop previous.length locals, hlonger.2.2]
          have hjoined : AreReadAs g l (previous ++ locals.drop previous.length)
              (previous' ++ appended) := List.rel_append hprevious hdrop
          rw [heq] at hjoined
          exact ⟨_, [], hjoined, .nil, rfl⟩
      · split at hf
        · next hshorter =>
          cases hf with
          | chop =>
            have hlength : previous.length = previous'.length := hprevious.length_eq
            have htake : AreReadAs g l (previous.take locals.length) (previous'.take locals.length) :=
              List.forall₂_take _ hprevious
            rw [hshorter.2.2] at htake
            refine ⟨_, [], htake, .nil, ?_⟩
            unfold Frame.expand
            dsimp only
            rw [if_pos (by omega)]
            have hcount : previous'.length -
                ((previous.length - locals.length : Nat) : Int).toNat = locals.length := by omega
            rw [hcount]
        · exact hfull hf
    · exact hfull hf

end Compress

/-! ## Recorded states -/

namespace Flow

/-- The values of slots are among the slots: what a frame lists is the state of a local or of the
stack, with the second halves of wide values left out. -/
theorem mem_of_mem_valuesOnto {v : VerificationType} {slots acc : List VerificationType}
    (h : v ∈ valuesOnto slots acc) : v ∈ slots ∨ v ∈ acc := by
  induction slots, acc using valuesOnto.induct with
  | case1 acc => exact .inr (List.mem_reverse.1 h)
  | case2 acc w =>
    rcases List.mem_cons.1 (List.mem_reverse.1 h) with rfl | h
    · exact .inl (by simp)
    · exact .inr h
  | case3 acc w x rest hwide ih =>
    rw [valuesOnto, if_pos hwide] at h
    rcases ih h with h | h
    · exact .inl (by simp [h])
    · rcases List.mem_cons.1 h with rfl | h
      · exact .inl (by simp)
      · exact .inr h
  | case4 acc w x rest hwide ih =>
    rw [valuesOnto, if_neg hwide] at h
    rcases ih h with h | h
    · exact .inl (by simp [List.mem_cons.1 h])
    · rcases List.mem_cons.1 h with rfl | h
      · exact .inl (by simp)
      · exact .inr h

theorem mem_of_mem_localValues {v : VerificationType} {slots : List VerificationType}
    (h : v ∈ localValues slots) : v ∈ slots := by
  unfold localValues trim at h
  have hmem := List.mem_reverse.1 ((List.dropWhile_sublist _).subset (List.mem_reverse.1 h))
  exact (mem_of_mem_valuesOnto hmem).resolve_right nofun

theorem mem_of_mem_stackValues {v : VerificationType} {stack : List VerificationType}
    (h : v ∈ stackValues stack) : v ∈ stack :=
  List.mem_reverse.1 ((mem_of_mem_valuesOnto h).resolve_right nofun)

namespace Program

variable (p : Program) (l : Layout)

/-- The code offset of an instruction. -/
def offsetOf (index : Nat) : Nat := l.offset ((p.position? index).getD 0)

/-- A recorded type as it stands in the class file: names as they are stored, and an uninitialized
object with the code offset of its `new`. -/
def emitted : VerificationType → VerificationType
  | .object (some n) => .object (some (stored n))
  | .uninitialized (.position index) => .uninitialized (.position (p.offsetOf l index))
  | v => v

/-- A recorded state as a frame stands for it: the values of the locals without the tops at their
end, and those of the stack. -/
def emittedState (known : State) : List VerificationType × List VerificationType :=
  ((localValues known.locals).map (p.emitted l), (stackValues known.stack).map (p.emitted l))

variable {p l}

/-- An admitted type, with the place of its `new` in the body, has a tag that exists. -/
theorem hasTag_placed {v : VerificationType} (hv : p.Admits v) : (p.placed v).HasTag := by
  cases v with
  | irregular tag payload => exact absurd hv id
  | uninitialized site =>
    cases site with
    | label label => exact absurd hv id
    | position index => exact Int.le_refl 8
  | top => exact (by decide : (0 : Int) ≤ 8)
  | integer => exact (by decide : (1 : Int) ≤ 8)
  | float => exact (by decide : (2 : Int) ≤ 8)
  | double => exact (by decide : (3 : Int) ≤ 8)
  | long => exact (by decide : (4 : Int) ≤ 8)
  | null => exact (by decide : (5 : Int) ≤ 8)
  | uninitializedThis => exact (by decide : (6 : Int) ≤ 8)
  | object name => exact (by decide : (7 : Int) ≤ 8)

/-- What is read back for an admitted type is the type as it stands in the class file. -/
theorem eq_emitted {v v' : VerificationType} (hv : p.Admits v)
    (h : (p.placed v).readAs? stored l = some v') : v' = p.emitted l v := by
  cases v with
  | irregular tag payload => exact absurd hv id
  | uninitialized site =>
    cases site with
    | label label => exact absurd hv id
    | position index => exact (Option.some.inj h).symm
  | object name =>
    cases name with
    | none => cases h
    | some n => exact (Option.some.inj h).symm
  | _ => exact (Option.some.inj h).symm

theorem eq_map_emitted {vs vs' : List VerificationType} (hvs : ∀ v ∈ vs, p.Admits v)
    (h : AreReadAs stored l (vs.map p.placed) vs') : vs' = vs.map (p.emitted l) := by
  induction vs generalizing vs' with
  | nil =>
    cases h
    rfl
  | cons v vs ih =>
    obtain ⟨v', rest, hv, hrest, rfl⟩ := List.forall₂_cons_left_iff.1 h
    rw [eq_emitted (hvs v (by simp)) hv, ih (fun w hw => hvs w (by simp [hw])) hrest]
    rfl

/-- Frames for recorded states at some instructions; `previous` are the locals of the frame before.
-/
inductive AreComputed (p : Program) :
    List VerificationType → List Nat → List State → List (Nat × Frame) → Prop
  | nil (previous : List VerificationType) : AreComputed p previous [] [] []
  | cons {previous : List VerificationType} {index : Nat} {known : State} {points : List Nat}
    {knowns : List State} {frames : List (Nat × Frame)}
    (hrest : AreComputed p ((localValues known.locals).map p.placed) points knowns frames) :
    AreComputed p previous (index :: points) (known :: knowns)
      (((p.position? index).getD 0, compress previous ((localValues known.locals).map p.placed)
        ((stackValues known.stack).map p.placed)) :: frames)

/-- The frames at some instructions are made of their recorded states. -/
theorem exists_areComputed {s : Solver} {points : List Nat} {previous : List VerificationType}
    {acc frames : List (Nat × Frame)} (h : p.framesAt s points previous acc = .ok frames) :
    ∃ knowns found, frames = acc.reverse ++ found ∧
      List.Forall₂ (fun (index : Nat) known => s.states[index]? = some (some known)) points knowns ∧
      AreComputed p previous points knowns found := by
  induction points generalizing previous acc with
  | nil =>
    cases h
    exact ⟨[], [], (List.append_nil _).symm, .nil, .nil previous⟩
  | cons index points ih =>
    obtain ⟨known, hknown, hrest⟩ := Result.bind_eq_ok_iff.1 h
    obtain ⟨knowns, found, rfl, hknowns, hfound⟩ := ih hrest
    refine ⟨known :: knowns, _ :: found, ?_, .cons (Solver.stateAt_eq_ok_iff.1 hknown) hknowns,
      .cons hfound⟩
    rw [List.reverse_cons, List.append_assoc]
    rfl

/-- The frames of recorded states have the shapes of their kinds and tags that exist. -/
theorem AreComputed.regular {previous : List VerificationType} {points : List Nat}
    {knowns : List State} {frames : List (Nat × Frame)}
    (h : AreComputed p previous points knowns frames) (hknowns : ∀ known ∈ knowns, known.Admitted p) :
    ∀ f ∈ frames, f.2.HasShape ∧ ∀ v ∈ f.2.locals ++ f.2.stack, v.HasTag := by
  induction h with
  | nil previous => nofun
  | @cons previous index known points knowns frames _ ih =>
    intro f hf
    rcases List.mem_cons.1 hf with rfl | hf
    · refine ⟨hasShape_compress _ _ _, ?_⟩
      intro v hv
      have hadmitted := hknowns known (by simp)
      rcases mem_of_mem_compress hv with hv | hv <;> obtain ⟨w, hw, rfl⟩ := List.mem_map.1 hv
      · exact hasTag_placed (hadmitted.locals w (mem_of_mem_localValues hw))
      · exact hasTag_placed (hadmitted.stack w (mem_of_mem_stackValues hw))
    · exact ih (fun known hk => hknowns known (by simp [hk])) f hf

/-- What is read back for the frames of recorded states stands at the offsets of the instructions
and expands to the states. -/
theorem AreComputed.expandAll_eq {previous previous' : List VerificationType} {points : List Nat}
    {knowns : List State} {frames : List (Nat × Frame)} {raws : List RawFrame} {next : Nat}
    (h : AreComputed p previous points knowns frames) (hknowns : ∀ known ∈ knowns, known.Admitted p)
    (hread : AreReadBack stored l next frames raws) (hprevious : AreReadAs stored l previous previous') :
    raws.map RawFrame.offset = points.map (p.offsetOf l) ∧
      Frame.expandAll previous' (raws.map RawFrame.frame) =
        some (knowns.map (p.emittedState l)) := by
  induction h generalizing previous' raws next with
  | nil previous =>
    cases hread
    exact ⟨rfl, rfl⟩
  | @cons previous index known points knowns frames _ ih =>
    cases hread with
    | @cons _ _ _ f' _ raws _ hframe hrest =>
      have hadmitted := hknowns known (by simp)
      obtain ⟨locals', stack', hlocals, hstack, hexpand⟩ := exists_expand_eq hprevious hframe
      obtain ⟨hoffsets, hall⟩ := ih (fun known hk => hknowns known (by simp [hk])) hrest hlocals
      refine ⟨congrArg _ hoffsets, ?_⟩
      rw [List.map_cons, Frame.expandAll, hexpand]
      rw [eq_map_emitted (fun v hv => hadmitted.locals v (mem_of_mem_localValues hv)) hlocals] at hall ⊢
      rw [eq_map_emitted (fun v hv => hadmitted.stack v (mem_of_mem_stackValues hv)) hstack]
      show (do return _ :: (← Frame.expandAll _ _)) = _
      rw [hall]
      rfl

/-- The locals at the beginning of a method are read back as they stand in the class file. -/
theorem readAs?_of_isInitial {v : VerificationType} (hv : IsInitial v) :
    v.readAs? stored l = some (p.emitted l v) := by
  cases v with
  | irregular tag payload => exact absurd hv id
  | uninitialized site => exact absurd hv id
  | object name =>
    cases name with
    | none => exact absurd hv id
    | some n => rfl
  | _ => rfl

/-- The locals at the beginning of a method, as frames list them, are read back. -/
theorem areReadAs_localValues {slots : List VerificationType} (hslots : ∀ v ∈ slots, IsInitial v) :
    AreReadAs stored l (localValues slots) ((localValues slots).map (p.emitted l)) := by
  unfold AreReadAs
  rw [List.forall₂_map_right_iff, List.forall₂_same]
  intro v hv
  exact readAs?_of_isInitial (hslots v (mem_of_mem_localValues hv))

end Program

/-! ## The stack map of a method -/

/-- What the frames of a method are made from: its program, the layout of its body, the states that
the analysis recorded, and the instructions that need a frame, in order, each with its state. -/
structure FrameSource (P : Pool) (owner : Text) (m : Method) where
  program : Program
  layout : Layout
  solver : Solver
  entry : List VerificationType
  points : List Nat
  knowns : List State
  ofMethod : Program.ofMethod owner m = .ok program
  fixed_layout : Fixed P (Layout.of m.body) layout
  run : Solver.run program = .ok solver
  admitted : solver.Admitted program
  entryLocals : program.entryLocals = .ok entry
  pairwise : points.Pairwise (· < ·)
  mem_points_iff : ∀ index, index ∈ points ↔ program.FramePoint layout index
  recorded : List.Forall₂ (fun (index : Nat) known => solver.states[index]? = some (some known))
    points knowns

variable {P : Pool} {owner : Text} {m : Method}

theorem FrameSource.admitted_knowns (source : FrameSource P owner m) :
    ∀ known ∈ source.knowns, known.Admitted source.program := by
  intro known hknown
  obtain ⟨index, -, hindex⟩ := Result.exists_of_mem_right source.recorded hknown
  exact source.admitted hindex

theorem exists_frameSource {l : Layout} (hl : Fixed P (Layout.of m.body) l) {sizes : Maxima}
    {frames : List (Nat × Frame)}
    (h : computeFrames owner m ((l.landings m.body).map Int.ofNat) = .ok (sizes, frames)) :
    ∃ source : FrameSource P owner m, source.layout = l ∧
      source.program.AreComputed (localValues source.entry) source.points source.knowns frames := by
  obtain ⟨p, hp, h⟩ := Result.bind_eq_ok_iff.1 h
  obtain ⟨s, hs, h⟩ := Result.bind_eq_ok_iff.1 h
  obtain ⟨locals, -, h⟩ := Result.bind_eq_ok_iff.1 h
  obtain ⟨found, hframes, h⟩ := Result.bind_eq_ok_iff.1 h
  cases h
  obtain ⟨_, -, hframes⟩ := Result.bind_eq_ok_iff.1 hframes
  obtain ⟨entry, hentry, hframes⟩ := Result.bind_eq_ok_iff.1 hframes
  obtain ⟨points, hpoints, hframes⟩ := Result.bind_eq_ok_iff.1 hframes
  obtain ⟨knowns, computed, rfl, hknowns, hcomputed⟩ := Program.exists_areComputed hframes
  obtain ⟨hpairwise, hmem⟩ := Program.mem_framePoints_iff hp hpoints
  exact ⟨⟨p, l, s, entry, points, knowns, hp, hl, hs, Solver.admitted_of_run hp hs, hentry, hpairwise,
    hmem, hknowns⟩, rfl, hcomputed⟩

/-- The frames of a stack map: they stand at the instructions that need one, and expand to the
recorded states. -/
structure FrameSource.IsShownBy (source : FrameSource P owner m) (raws : List RawFrame) : Prop where
  offsets : raws.map RawFrame.offset = source.points.map (source.program.offsetOf source.layout)
  states : Frame.expandAll ((localValues source.entry).map (source.program.emitted source.layout))
      (raws.map RawFrame.frame) =
    some (source.knowns.map (source.program.emittedState source.layout))

/-- A stack map of frames that are computed is read back as frames that show their source. -/
theorem FrameSource.exists_whole {t : Table} (ht : Backs stored t P)
    {source : FrameSource P owner m} {place : Text} {frames : List (Nat × Frame)}
    (hframes : source.program.AreComputed (localValues source.entry) source.points source.knowns
      frames)
    {bytes : Bytes} (h : Fixed P (stackMap source.layout place frames) bytes) :
    ∃ raws, Outline.whole (readStackMap t) bytes = .ok raws ∧ source.IsShownBy raws := by
  have hregular := hframes.regular source.admitted_knowns
  have hparses : Parses True (readStackMap t) bytes (AreReadBack stored source.layout 0 frames) :=
    parses_readStackMap ht (fun f hf => (hregular f hf).1) (fun _ f hf => (hregular f hf).2) h
  obtain ⟨raws, hread, hraws⟩ := Outline.exists_whole_eq_ok hparses
  obtain ⟨hoffsets, hstates⟩ := hframes.expandAll_eq source.admitted_knowns hraws
    (Program.areReadAs_localValues (Solver.isInitial_of_entryLocals source.entryLocals))
  exact ⟨raws, hread, hoffsets, hstates⟩

end Flow

/-- The frames of the code of a method; code without a stack map has none. -/
def CodeOutline.frames (t : Table) (code : CodeOutline) : Result (List RawFrame) :=
  match Attribute.named AttributeName.stackMap code.attributes with
  | some a => Outline.whole (readStackMap t) a.data
  | none => .ok []

theorem isPlain_stackMap : IsPlain AttributeName.stackMap := ModifiedUtf8.isPlain_ofString (by decide)

/-- The stack maps among the attributes of code are the one that is made from frames, if there are
any, and those that the method brings as bytes. -/
theorem Encoding.filter_stackMap (m : Method) (l : Layout) (place : Text) (frames : List (Nat × Frame)) :
    (codePieces m l place frames).filter (fun p => p.name = AttributeName.stackMap) =
      pieceIf (!frames.isEmpty) AttributeName.stackMap (stackMap l place frames) ++
        (rawPieces m.codeAttributes).filter fun p => p.name = AttributeName.stackMap := by
  rw [filter_codePieces, if_neg (by decide), if_neg (by decide), if_neg (by decide), if_pos rfl]
  simp only [List.nil_append]

/-- A body without frames has none of its own. -/
theorem Encoding.ownFrames_eq_nil {body : List Item} (h : ∀ f, Item.frame f ∉ body) :
    ownFrames body = [] := by
  unfold ownFrames
  rw [List.filterMap_eq_nil_iff]
  rintro ⟨item, position⟩ hmem
  have hin : item ∈ body := List.fst_mem_of_mem_zipIdx hmem
  cases item with
  | frame f => exact absurd hin (h f)
  | _ => rfl

/-- The frames of a verified method without frames of its own have a source. -/
theorem Encoding.CodeParts.exists_frameSource {P : Pool} {owner : Text} {stackMaps : Bool} {m : Method}
    (parts : CodeParts owner true stackMaps m P) (hstackMaps : stackMaps = true)
    (hframes : ∀ f, Item.frame f ∉ m.body) :
    ∃ source : Flow.FrameSource P owner m, source.layout = parts.layout ∧
      source.program.AreComputed (Flow.localValues source.entry) source.points source.knowns
        parts.frames := by
  subst hstackMaps
  have hverified := parts.verified_eq
  unfold verified at hverified
  rw [ownFrames_eq_nil hframes] at hverified
  obtain ⟨⟨computed, frames⟩, hcompute, hrest⟩ := Result.bind_eq_ok_iff.1 hverified
  have hpair := Except.ok.inj hrest
  rw [← (Prod.mk.inj hpair).2]
  exact Flow.exists_frameSource parts.fixed_layout hcompute

/-- The frames of code that is written with computed frames show their source. -/
theorem Flow.FrameSource.exists_frames {P : Pool} {owner : Text} {m : Method} {t : Table}
    (ht : Backs stored t P) {stackMaps : Bool} (parts : CodeParts owner true stackMaps m P)
    {source : FrameSource P owner m} (hlayout : source.layout = parts.layout)
    (hcomputed : source.program.AreComputed (localValues source.entry) source.points source.knowns
      parts.frames)
    (hsome : source.points ≠ [] ∨ ∀ a ∈ m.codeAttributes, a.name ≠ AttributeName.stackMap)
    {code : CodeOutline} (hcode : code.attributes = parts.attributes.map (Attribute.mapName stored)) :
    ∃ raws, code.frames t = .ok raws ∧ source.IsShownBy raws := by
  have hfilter := filter_stackMap m parts.layout (Program.placeOf owner m) parts.frames
  unfold CodeOutline.frames
  rw [hcode]
  by_cases hempty : parts.frames = []
  · rw [hempty] at hcomputed hfilter
    -- no frames are computed where no instruction needs one, and no table is written then
    have hpoints : source.points = [] ∧ source.knowns = [] := by
      generalize source.points = points at hcomputed
      generalize source.knowns = knowns at hcomputed
      cases hcomputed
      exact ⟨rfl, rfl⟩
    have hraw : (rawPieces m.codeAttributes).filter (fun p => p.name = AttributeName.stackMap) = [] := by
      rw [List.filter_eq_nil_iff]
      intro p hp
      obtain ⟨a, ha, rfl⟩ := List.mem_map.1 hp
      simpa using hsome.resolve_left (fun h => h hpoints.1) a ha
    rw [hraw] at hfilter
    refine ⟨[], ?_, ?_, ?_⟩
    · rw [named_eq_none isPlain_stackMap (hempty ▸ parts.writes) hfilter]
    · rw [hpoints.1]
      rfl
    · rw [hpoints.2]
      rfl
  · have hnot : (!parts.frames.isEmpty) = true := by simpa using hempty
    rw [pieceIf, if_pos hnot] at hfilter
    obtain ⟨a, hnamed, ha⟩ := exists_named_eq_some isPlain_stackMap parts.writes hfilter
    rw [hnamed]
    rw [← hlayout] at ha
    exact source.exists_whole ht hcomputed ha

/-- The stack map that is written for a verified method without frames of its own, in a class whose
version has stack maps, stands for what the analysis recorded: there is a frame at the code offset
of each instruction that needs one, and no other, and the frames expand to the recorded states.
Where no instruction needs a frame there is no stack map, unless the method brings one as bytes. The
offsets are those of the layout, at which the instructions stand if each switch over single keys has
a key for each target. -/
theorem Class.exists_frameSource_of_toBytes {c : Class} {bytes : Bytes} {k : Nat} {m : Method}
    (h : c.toBytes true = .ok bytes) (hpool : c.HasReadPool) (hmajor : stackMapMajor ≤ c.major)
    (hm : c.methods[k]? = some m) (hcode : m.hasCode = true) (hframes : ∀ f, Item.frame f ∉ m.body) :
    ∃ (P : Pool) (source : Flow.FrameSource P c.name m) (o : Outline) (member : MemberOutline)
      (code : CodeOutline),
      (classFile true c).run (Pool.seeded c.layout.pool c.layout.bootstrap) = .ok (bytes, P) ∧
      Outline.ofBytes bytes = .ok o ∧ o.methods[k]? = some member ∧
      member.code? o.table = some (.ok code) ∧
      (source.points ≠ [] ∨ (∀ a ∈ m.codeAttributes, a.name ≠ AttributeName.stackMap) →
        ∃ raws, code.frames o.table = .ok raws ∧ source.IsShownBy raws) ∧
      ((∀ i, Item.instruction i ∈ m.body → HasKeys i) →
        source.layout.Places P (Flow.Program.placeOf c.name m) m.body code.instructions) := by
  obtain ⟨w⟩ := written_of_toBytes h
  obtain ⟨o, member, code, parts, ho, ht, hmember, hread, hinstructions, hattributes⟩ :=
    w.exists_code hpool.isSeed hm hcode
  obtain ⟨source, hlayout, hcomputed⟩ := parts.exists_frameSource (decide_eq_true hmajor) hframes
  refine ⟨w.pool, source, o, member, code, w.run, ho, hmember, hread, ?_, ?_⟩
  · intro hsome
    exact Flow.FrameSource.exists_frames ht parts hlayout hcomputed hsome hattributes
  · intro hkeys
    rw [hlayout, hinstructions]
    exact parts.places hkeys

/-! ## A name in two halves -/

/-- A name that is a surrogate pair, its halves as two code points. -/
def splitName : Text := [0xD800, 0xDC00]

/-- A method with an argument of a class with that name; it loads the argument and goes round. -/
def splitMethod : Method where
  access := 0x8
  name := "f"
  descriptor := "(L" ++ splitName ++ ";)V"
  body := [.instruction (.variable .aload 0), .label ⟨"L"⟩, .instruction (.jump .goto ⟨"L"⟩)]

/-- A class with that method only. -/
def splitClass : Class where
  name := "A"
  super := none
  methods := [splitMethod]

namespace Flow

/-- The program of the method. -/
def splitProgram : Program where
  owner := "A"
  method := splitMethod
  instructions := #[(0, .variable .aload 0), (2, .jump .goto ⟨"L"⟩)]
  indexOf := ({} : Std.HashMap Label Nat).insert ⟨"L"⟩ 1
  regions := []

/-- The states of the program. -/
def splitSolver : Solver where
  states := #[some ⟨[.object (some splitName)], []⟩,
    some ⟨[.object (some splitName)], [.object (some splitName)]⟩]
  pending := []
  maxStack := 1

theorem entryLocals_splitProgram : splitProgram.entryLocals = .ok [.object (some splitName)] := by
  cbv

theorem successors_splitProgram :
    splitProgram.successors 1 (.jump .goto ⟨"L"⟩) = .ok [1] := by
  cbv

theorem run_splitProgram : Solver.run splitProgram = .ok splitSolver := by
  unfold Solver.run
  rw [entryLocals_splitProgram]
  show Solver.solve splitProgram ⟨#[some ⟨[.object (some splitName)], []⟩, none], [0], 0⟩ = _
  rw [Solver.solve_of_visit (t := { splitSolver with pending := [1] }) rfl rfl,
    Solver.solve_of_visit (t := splitSolver) rfl ?_, Solver.solve_of_nil rfl]
  show splitSolver.apply splitProgram 1 (.jump .goto ⟨"L"⟩) = .ok splitSolver
  unfold Solver.apply
  simp only [successors_splitProgram]
  rfl

theorem framePoints_splitProgram : splitProgram.framePoints [] = .ok [1] := by
  have hreached : splitProgram.instructions.toList.zipIdx.mapM
      (fun x => splitProgram.pointsAfter x.2 x.1.2) = .ok [[], [1]] := by cbv
  rw [Program.framePoints_eq_ok hreached]
  rfl

/-- The one frame of the method. -/
def splitFrames : List (Nat × Frame) := [(2, ⟨.sameLocals1, [], [.object (some splitName)], 0⟩)]

/-- The sizes and the frame that are computed for the method. -/
theorem computeFrames_splitMethod :
    computeFrames "A" splitMethod [] = .ok (⟨1, 1⟩, splitFrames) := by
  have hframes : splitProgram.frames splitSolver [] = .ok splitFrames := by
    unfold Program.frames
    rw [entryLocals_splitProgram, framePoints_splitProgram]
    rfl
  exact computeFrames_eq_ok rfl run_splitProgram (by cbv) hframes

end Flow

namespace Encoding

/-- The layout of the method. -/
def splitLayout : Layout :=
  Layout.relax splitMethod.body [.fixed 2, .marker, .jump 3 5] [false, false, false]

/-- The method is written with the size and the frame that are computed for it. -/
theorem verified_splitMethod : verified splitClass.name true true splitMethod splitLayout =
    .ok (⟨1, 1⟩, Flow.splitFrames) := by
  have hlandings : splitLayout.landings splitMethod.body = [] := by cbv
  have hcomputed : Flow.computeFrames "A" splitMethod
      ((splitLayout.landings splitMethod.body).map Int.ofNat) = .ok (⟨1, 1⟩, Flow.splitFrames) := by
    rw [hlandings]
    exact Flow.computeFrames_splitMethod
  exact verified_eq_ok rfl hcomputed

/-- The code of the method, from its layout and its frame. -/
def splitCode : Encoder Bytes := do
  let place := Flow.Program.placeOf splitClass.name splitMethod
  let bytes ← operations splitLayout place splitMethod.body
  let _ ← checkLength place bytes
  let stack ← u2 1
  let locals ← u2 1
  let length ← u4 bytes.length
  let handlers ← listOf (handler splitLayout) []
  let attributes ← attributes (codePieces splitMethod splitLayout place Flow.splitFrames) []
  return stack ++ locals ++ length ++ bytes ++ handlers ++ attributes

theorem code_splitMethod : code splitClass.name true true splitMethod = splitCode := by
  have hlabels : checkLabels (Flow.Program.placeOf splitClass.name splitMethod) splitMethod = .ok () := by
    cbv
  have hlayout : Layout.of splitMethod.body = pure splitLayout := rfl
  rw [code_eq, hlabels, lift_ok_bind, hlayout, pure_bind, verified_splitMethod, lift_ok_bind]
  rfl

/-- The class file of the class. -/
def splitBytes : Bytes :=
  [202, 254, 186, 190, 0, 0, 0, 52, 0, 9, 1, 0, 1, 65, 7, 0, 1, 1, 0, 1, 102, 1, 0, 11, 40, 76, 237, 160,
    128, 237, 176, 128, 59, 41, 86, 1, 0, 4, 67, 111, 100, 101, 1, 0, 13, 83, 116, 97, 99, 107, 77, 97,
    112, 84, 97, 98, 108, 101, 1, 0, 6, 237, 160, 128, 237, 176, 128, 7, 0, 7, 0, 33, 0, 2, 0, 0, 0, 0,
    0, 0, 0, 1, 0, 8, 0, 3, 0, 4, 0, 1, 0, 5, 0, 0, 0, 29, 0, 1, 0, 1, 0, 0, 0, 5, 25, 0, 167, 0, 0, 0,
    0, 0, 1, 0, 6, 0, 0, 0, 6, 0, 1, 66, 7, 0, 8, 0, 0]

/-- The methods of the class, from the code. -/
theorem listOf_splitMethod : listOf (method splitClass.name true (stackMapMajor ≤ splitClass.major))
    splitClass.methods = (do
      let count ← u2 1
      let bytes ← (do
        return (← memberHead splitMethod.access splitMethod.name splitMethod.descriptor) ++
          (← attributes [⟨AttributeName.code, splitCode⟩] []))
      return count ++ bytes) :=
  listOf_method_singleton code_splitMethod rfl rfl

theorem run_splitClass :
    ∃ q, (classFile true splitClass).run (Pool.seeded [] []) = .ok (splitBytes, q) := by
  unfold classFile body
  rw [listOf_splitMethod]
  exact ⟨_, by cbv⟩

/-- The class with a pool that has no blank behind an entry of two slots. -/
def gapClass : Class :=
  { splitClass with layout := { pool := [none, some (.long 7)] } }

/-- The class file of the class with such a pool. -/
def gapBytes : Bytes :=
  [202, 254, 186, 190, 0, 0, 0, 52, 0, 10, 5, 0, 0, 0, 0, 0, 0, 0, 7, 1, 0, 1, 65, 7, 0, 2, 1, 0, 1,
    102, 1, 0, 11, 40, 76, 237, 160, 128, 237, 176, 128, 59, 41, 86, 1, 0, 4, 67, 111, 100, 101, 1, 0,
    13, 83, 116, 97, 99, 107, 77, 97, 112, 84, 97, 98, 108, 101, 1, 0, 6, 237, 160, 128, 237, 176, 128,
    7, 0, 8, 0, 33, 0, 3, 0, 0, 0, 0, 0, 0, 0, 1, 0, 8, 0, 4, 0, 5, 0, 1, 0, 6, 0, 0, 0, 29, 0, 1, 0, 1,
    0, 0, 0, 5, 25, 0, 167, 0, 0, 0, 0, 0, 1, 0, 7, 0, 0, 0, 6, 0, 1, 66, 7, 0, 9, 0, 0]

theorem run_gapClass : ∃ q, (classFile true gapClass).run
    (Pool.seeded [none, some (.long 7)] []) = .ok (gapBytes, q) := by
  have hmethods : listOf (method gapClass.name true (stackMapMajor ≤ gapClass.major))
      gapClass.methods = _ := listOf_splitMethod
  unfold classFile body
  rw [hmethods]
  exact ⟨_, by cbv⟩

/-- In the class file the two halves of the name are one code point, so the frame does not expand to
the recorded state. With a gap in the pool the class file cannot be taken apart at all. -/
theorem expandAll_ne_splitClass : splitClass.toBytes true = .ok splitBytes ∧
    Flow.Program.ofMethod splitClass.name splitMethod = .ok Flow.splitProgram ∧
    Flow.Solver.run Flow.splitProgram = .ok Flow.splitSolver ∧
    (∃ o member code raws, Outline.ofBytes splitBytes = .ok o ∧ o.methods = [member] ∧
      member.code? o.table = some (.ok code) ∧ code.frames o.table = .ok raws ∧
      ∀ entry known, Flow.splitProgram.entryLocals = .ok entry →
        Flow.splitSolver.states[1]? = some (some known) →
        Frame.expandAll (Flow.localValues entry) (raws.map RawFrame.frame) ≠
          some [(Flow.localValues known.locals, Flow.stackValues known.stack)]) ∧
    gapClass.toBytes true = .ok gapBytes ∧ ∀ o, Outline.ofBytes gapBytes ≠ .ok o := by
  obtain ⟨q, hrun⟩ := run_splitClass
  obtain ⟨q', hrun'⟩ := run_gapClass
  refine ⟨toBytes_eq_ok hrun, rfl, Flow.run_splitProgram,
    ⟨_, _, _, _, by cbv, by cbv, by cbv, by cbv, ?_⟩,
    toBytes_eq_ok hrun', ?_⟩
  · intro entry known hentry hknown
    rw [Flow.entryLocals_splitProgram] at hentry
    cases hentry
    cases hknown
    decide
  · intro o ho
    have hfails : (Outline.ofBytes gapBytes).toBool = false := by cbv
    rw [ho] at hfails
    cases hfails

/-- What is read back for the method stands for what is recorded, with the name as it is stored. -/
theorem exists_frames_splitClass : splitClass.toBytes true = .ok splitBytes ∧ splitClass.HasReadPool ∧
    ∃ (P : Pool) (source : Flow.FrameSource P splitClass.name splitMethod) (o : Outline)
      (member : MemberOutline) (code : CodeOutline) (raws : List RawFrame),
      Outline.ofBytes splitBytes = .ok o ∧ o.methods[0]? = some member ∧
      member.code? o.table = some (.ok code) ∧ code.frames o.table = .ok raws ∧
      source.IsShownBy raws := by
  obtain ⟨q, hrun⟩ := run_splitClass
  have hbytes : splitClass.toBytes true = .ok splitBytes := toBytes_eq_ok hrun
  have hpool : splitClass.HasReadPool := .inl rfl
  have hframes : ∀ f, Item.frame f ∉ splitMethod.body := by simp [splitMethod]
  obtain ⟨P, source, o, member, code, -, ho, hmember, hcode, hraws, -⟩ :=
    Class.exists_frameSource_of_toBytes hbytes hpool (by decide) (k := 0) rfl rfl hframes
  obtain ⟨raws, hraws, hshown⟩ := hraws (.inr nofun)
  exact ⟨hbytes, hpool, P, source, o, member, code, raws, ho, hmember, hcode, hraws, hshown⟩

end Encoding

end ClassTree
