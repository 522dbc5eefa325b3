/-
# ClassTree.Proofs.Decoding.Labels — code offsets and their labels

Reading the code of a method puts a label in the place of every code offset, and changes nothing
else. What is labelled *matches* what stands in the file: it is the same but for the places, and the
places correspond. Labelling gives matches in which offsets correspond to the labels issued for
them.
-/
import ClassTree.Decoding.Code
import ClassTree.Proofs.Class.Sound
import ClassTree.Proofs.Label.Registry

namespace ClassTree

namespace Decoding

open Label (Issues StaysIn)

/-- Offsets correspond to the labels that were issued for them. -/
def Known (seen : List (Int × Label)) (offset : Int) (l : Label) : Prop := (offset, l) ∈ seen

/-- A handler whose places correspond. -/
structure RawHandler.Matches (R : Int → Label → Prop) (h : RawHandler) (h' : Handler) : Prop where
  start : R h.start h'.start
  stop : R h.stop h'.stop
  target : R h.target h'.target
  type : h.type = h'.type

/-- A variable with its descriptor and its signature, as tables give them. -/
structure JoinedVariable where
  variable_ : RawVariable
  descriptor : Option Text
  signature : Option Text

/-- A variable whose places correspond. -/
structure JoinedVariable.Matches (R : Int → Label → Prop) (v : JoinedVariable) (v' : LocalVariable) :
    Prop where
  start : R v.variable_.start v'.start
  stop : R (v.variable_.start + v.variable_.length : Nat) v'.stop
  name : v.variable_.name = v'.name
  slot : v.variable_.slot = v'.slot
  descriptor : v.descriptor = v'.descriptor
  signature : v.signature = v'.signature

/-! ## Labelling -/

theorem issues_labelAt (offset : Int) :
    Issues (labelAt offset) fun seen l => Known seen offset l := by
  intro r hr
  obtain ⟨hnumbered, hprefix, hmem⟩ := hr.atOffset offset
  exact ⟨hnumbered, hprefix, fun seen hseen => hseen.subset hmem⟩

theorem issues_labelHandler (h : RawHandler) :
    Issues (labelHandler h) fun seen h' => h.Matches (Known seen) h' := by
  refine (issues_labelAt _).bind fun start => ?_
  refine (issues_labelAt _).bind fun stop => ?_
  refine (issues_labelAt _).bind fun target => ?_
  exact .pure fun _ htarget hstop hstart => ⟨hstart, hstop, htarget, rfl⟩

theorem issues_mapTargets (i : Instruction Int) :
    Issues (i.mapTargets labelAt) fun seen i' => i.Matches (Known seen) i' := by
  have hall (ts : List Int) :
      Issues (ts.mapM labelAt) fun seen ls => List.Forall₂ (Known seen) ts ls :=
    Issues.mapM fun t _ => issues_labelAt t
  cases i with
  | jump op t => exact (issues_labelAt t).map fun _ _ h => .jump op h
  | tableSwitch low high d ts =>
    refine (issues_labelAt d).bind fun d' => ?_
    refine (hall ts).bind fun ts' => ?_
    exact .pure fun _ hs h => .tableSwitch low high h hs
  | lookupSwitch d keys ts =>
    refine (issues_labelAt d).bind fun d' => ?_
    refine (hall ts).bind fun ts' => ?_
    exact .pure fun _ hs h => .lookupSwitch keys h hs
  | _ => exact .pure fun _ => by constructor

theorem issues_labelVariable (v : JoinedVariable) :
    Issues (labelVariable v.variable_ v.descriptor v.signature)
      fun seen v' => v.Matches (Known seen) v' := by
  refine (issues_labelAt _).bind fun start => ?_
  refine (issues_labelAt _).bind fun stop => ?_
  exact .pure fun _ hstop hstart => ⟨hstart, hstop, rfl, rfl, rfl, rfl⟩

/-- Variables joined with their signatures. A signature is used up by the first variable that it is
about; those left over come last. -/
def joinVariables : List RawVariable → List RawVariable → List JoinedVariable
  | [], signatures => signatures.map fun v => ⟨v, none, some v.descriptor⟩
  | v :: described, signatures =>
    ⟨v, some v.descriptor, (takeSignature signatures v).1⟩ ::
      joinVariables described (takeSignature signatures v).2

/-- Labelling goes over the variables that have been joined. -/
theorem labelVariables_eq (described signatures : List RawVariable) (acc : List LocalVariable) :
    labelVariables described signatures acc = (do
      let rest ← (joinVariables described signatures).mapM fun v =>
        labelVariable v.variable_ v.descriptor v.signature
      return acc.reverse ++ rest) := by
  induction described generalizing signatures acc with
  | nil =>
    simp only [labelVariables, joinVariables, List.mapM_map]
    rfl
  | cons v described ih =>
    simp only [labelVariables, joinVariables, List.mapM_cons, ih, bind_assoc, pure_bind,
      List.reverse_cons, List.append_assoc, List.singleton_append]

theorem issues_labelVariables (described signatures : List RawVariable) :
    Issues (labelVariables described signatures []) fun seen vs =>
      List.Forall₂ (JoinedVariable.Matches (Known seen)) (joinVariables described signatures) vs := by
  rw [labelVariables_eq]
  exact (Issues.mapM fun v _ => issues_labelVariable v).map fun _ _ h => h

theorem issues_labelType (v : VerificationType) :
    Issues (labelType v) fun seen v' => v.Matches (Known seen) v' := by
  unfold labelType
  split
  · exact (issues_labelAt _).map fun _ _ h => .site h
  · next hv => exact .pure fun _ => .same hv

theorem issues_labelFrame (f : Frame) :
    Issues (labelFrame f) fun seen f' => f.Matches (Known seen) f' := by
  refine (Issues.mapM fun v _ => issues_labelType v).bind fun locals => ?_
  refine (Issues.mapM fun v _ => issues_labelType v).bind fun stack => ?_
  exact .pure fun _ hstack hlocals => ⟨rfl, hlocals, hstack, rfl⟩

/-- What has been labelled matches what stands in the file. -/
structure RawCode.Matches (R : Int → Label → Prop) (r : RawCode) (l : LabelledCode) : Prop where
  handlers : List.Forall₂ (RawHandler.Matches R) r.handlers l.handlers
  instructions : List.Forall₂ (fun p i => p.2.Matches R i) r.instructions l.instructions
  locals : List.Forall₂ (JoinedVariable.Matches R)
    (joinVariables r.tables.described r.tables.signatures) l.localVariables
  frames : List.Forall₂ (fun f p => f.offset = p.1 ∧ f.frame.Matches R p.2) r.tables.frames l.frames

theorem issues_label (r : RawCode) : Issues r.label fun seen l => r.Matches (Known seen) l := by
  refine (Issues.mapM fun h _ => issues_labelHandler h).bind fun handlers => ?_
  refine (Issues.mapM fun p _ => issues_mapTargets p.2).bind fun instructions => ?_
  refine (issues_labelVariables _ _).bind fun locals => ?_
  refine Issues.bind (P := fun seen frames => List.Forall₂
    (fun (f : RawFrame) p => f.offset = p.1 ∧ f.frame.Matches (Known seen) p.2) r.tables.frames frames)
    (Issues.mapM fun f _ => (issues_labelFrame f.frame).map fun _ _ h => ⟨rfl, h⟩) fun frames => ?_
  exact .pure fun _ hframes hlocals hinstructions hhandlers =>
    ⟨hhandlers, hinstructions, hlocals, hframes⟩

/-! ## Offsets that get labels -/

/-- The code offsets that handlers, instructions, variables and frames refer to are of a sort. -/
structure RawCode.RefersTo (S : Int → Prop) (r : RawCode) : Prop where
  handlers : ∀ h ∈ r.handlers, S h.start ∧ S h.stop ∧ S h.target
  instructions : ∀ p ∈ r.instructions, ∀ target ∈ p.2.targets, S target
  locals : ∀ v ∈ r.tables.described ++ r.tables.signatures,
    S v.start ∧ S (v.start + v.length : Nat)
  frames : ∀ f ∈ r.tables.frames, ∀ v ∈ f.frame.locals ++ f.frame.stack, ∀ p : Nat,
    v = .uninitialized (.position p) → S p

variable {S : Int → Prop}

theorem staysIn_mapTargets {i : Instruction Int} (h : ∀ target ∈ i.targets, S target) :
    StaysIn S (i.mapTargets labelAt) := by
  have hall {ts : List Int} (hts : ∀ t ∈ ts, S t) : StaysIn S (ts.mapM labelAt) :=
    StaysIn.mapM fun t ht => .atOffset (hts t ht)
  cases i with
  | jump op t => exact (StaysIn.atOffset (h t (by simp [Instruction.targets]))).map _
  | tableSwitch low high d ts =>
    refine (StaysIn.atOffset (h d (by simp [Instruction.targets]))).bind fun d' => ?_
    exact (hall fun t ht => h t (by simp [Instruction.targets, ht])).map _
  | lookupSwitch d keys ts =>
    refine (StaysIn.atOffset (h d (by simp [Instruction.targets]))).bind fun d' => ?_
    exact (hall fun t ht => h t (by simp [Instruction.targets, ht])).map _
  | _ => exact .pure _

theorem mem_of_mem_joinVariables {described signatures : List RawVariable} {v : JoinedVariable}
    (hv : v ∈ joinVariables described signatures) : v.variable_ ∈ described ++ signatures := by
  induction described generalizing signatures with
  | nil =>
    obtain ⟨w, hw, rfl⟩ := List.mem_map.1 hv
    simpa using hw
  | cons w described ih =>
    rcases List.mem_cons.1 hv with rfl | hv
    · simp
    · have htake : ∀ u ∈ (takeSignature signatures w).2, u ∈ signatures := by
        unfold takeSignature
        split
        · exact fun u hu => List.mem_of_mem_filter hu
        · exact fun u hu => hu
      have := ih hv
      grind

theorem staysIn_labelVariables {described signatures : List RawVariable}
    (h : ∀ v ∈ described ++ signatures, S v.start ∧ S (v.start + v.length : Nat)) :
    StaysIn S (labelVariables described signatures []) := by
  rw [labelVariables_eq]
  refine (StaysIn.mapM fun v hv => ?_).map _
  obtain ⟨hstart, hstop⟩ := h _ (mem_of_mem_joinVariables hv)
  exact (StaysIn.atOffset hstart).bind fun start => (StaysIn.atOffset hstop).map _

theorem staysIn_labelType {v : VerificationType}
    (h : ∀ p : Nat, v = .uninitialized (.position p) → S p) : StaysIn S (labelType v) := by
  unfold labelType
  split
  · next p => exact (StaysIn.atOffset (h p rfl)).map _
  · exact .pure _

/-- A code attribute gets labels for the offsets that it refers to. -/
theorem staysIn_label {r : RawCode} (h : r.RefersTo S) : StaysIn S r.label := by
  refine (StaysIn.mapM fun handler hhandler => ?_).bind fun handlers => ?_
  · obtain ⟨hstart, hstop, htarget⟩ := h.handlers handler hhandler
    refine (StaysIn.atOffset hstart).bind fun start => ?_
    refine (StaysIn.atOffset hstop).bind fun stop => ?_
    exact (StaysIn.atOffset htarget).map _
  refine (StaysIn.mapM fun p hp => staysIn_mapTargets (h.instructions p hp)).bind fun is => ?_
  refine (staysIn_labelVariables h.locals).bind fun locals => ?_
  refine (StaysIn.mapM fun f hf => ?_).map _
  have htypes := h.frames f hf
  refine StaysIn.map (s := labelFrame f.frame) ?_ _
  refine (StaysIn.mapM fun v hv => staysIn_labelType (htypes v (by simp [hv]))).bind fun ls => ?_
  exact (StaysIn.mapM fun v hv => staysIn_labelType (htypes v (by simp [hv]))).map _

end Decoding

end ClassTree
