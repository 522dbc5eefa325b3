/-
# ClassTree.Proofs.Decoding.Closed — the code of a method is closed

The labels of a method that has been read are those that were issued for its code offsets. Each of
them stands in the body once, at its offset, and nothing else is referred to.
-/
import ClassTree.Proofs.Decoding.Assembly

namespace ClassTree.Decoding

/-! ## Code attributes -/

/-- The offset is two bytes long, and so is the line. -/
def RawLine.IsSound (l : RawLine) : Prop := l.line < 0x10000

/-- The numbers of a code attribute are in the range of their fields, and its instructions are in
order.
-/
structure RawCode.IsSound (r : RawCode) : Prop where
  maxima : IsInt r.maxima.stack ∧ IsInt r.maxima.locals
  instructions : ∀ p ∈ r.instructions, p.2.IsSound
  inOrder : InOrder r.length r.instructions
  lines : ∀ table ∈ r.tables.lines, ∀ l ∈ table, l.IsSound
  described : ∀ v ∈ r.tables.described, v.slot < 0x10000
  signatures : ∀ v ∈ r.tables.signatures, v.slot < 0x10000
  frames : ∀ f ∈ r.tables.frames, IsRawFrame f.frame

/-- The code of a method as readers give it. -/
structure Code.IsSound (c : Code) : Prop where
  maxima : IsInt c.maxima.stack ∧ IsInt c.maxima.locals
  items : ∀ i ∈ c.body, i.IsSound
  locals : ∀ v ∈ c.localVariables, v.IsSound
  closed : Closed c.body c.handlers c.localVariables

/-! ## Frames and variables -/

theorem isSound_of_matches {R : Int → Label → Prop} {v v' : VerificationType} (hv : IsRawType v)
    (h : v.Matches R v') : v'.IsSound := by
  cases h with
  | same hne =>
    cases v with
    | uninitialized site =>
      cases site with
      | label l => exact absurd hv id
      | position p => exact absurd rfl (hne p)
    | irregular tag payload => exact absurd hv id
    | _ => trivial
  | site h => trivial

/-- The label of a type that has been labelled is known. -/
theorem exists_of_label? {R : Int → Label → Prop} {v v' : VerificationType} (hv : IsRawType v)
    (h : v.Matches R v') {l : Label} (hl : v'.label? = some l) : ∃ offset, R offset l := by
  cases h with
  | same hne =>
    cases v with
    | uninitialized site =>
      cases site with
      | label l => exact absurd hv id
      | position p => cases hl
    | _ => cases hl
  | site h => exact ⟨_, Option.some.inj hl ▸ h⟩

theorem forall_isSound {R : Int → Label → Prop} {vs vs' : List VerificationType}
    (hvs : ∀ v ∈ vs, IsRawType v) (h : List.Forall₂ (VerificationType.Matches R) vs vs') :
    ∀ v ∈ vs', v.IsSound := by
  intro v' hv'
  induction h with
  | nil => cases hv'
  | cons hv _ ih =>
    rcases List.mem_cons.1 hv' with rfl | hv'
    · exact isSound_of_matches (hvs _ (by simp)) hv
    · exact ih (fun v hv => hvs v (by simp [hv])) hv'

/-- The labels of types that have been labelled are known. -/
theorem exists_of_mem_labels {R : Int → Label → Prop} {vs vs' : List VerificationType}
    (hvs : ∀ v ∈ vs, IsRawType v) (h : List.Forall₂ (VerificationType.Matches R) vs vs') {l : Label}
    (hl : l ∈ vs'.filterMap VerificationType.label?) : ∃ offset, R offset l := by
  induction h with
  | nil => cases hl
  | cons hv _ ih =>
    rw [List.filterMap_cons] at hl
    split at hl
    · exact ih (fun v hv => hvs v (by simp [hv])) hl
    · next label hlabel =>
      rcases List.mem_cons.1 hl with rfl | hl
      · exact exists_of_label? (hvs _ (by simp)) hv hlabel
      · exact ih (fun v hv => hvs v (by simp [hv])) hl

/-- Joined variables have the slots of the tables, and a type of one of the two sorts. -/
theorem joinVariables_spec {described signatures : List RawVariable}
    (hdescribed : ∀ v ∈ described, v.slot < 0x10000)
    (hsignatures : ∀ v ∈ signatures, v.slot < 0x10000) :
    ∀ v ∈ joinVariables described signatures,
      v.variable_.slot < 0x10000 ∧ (v.descriptor.isSome ∨ v.signature.isSome) := by
  induction described generalizing signatures with
  | nil =>
    intro v hv
    obtain ⟨w, hw, rfl⟩ := List.mem_map.1 hv
    exact ⟨hsignatures w hw, .inr rfl⟩
  | cons v described ih =>
    intro w hw
    rcases List.mem_cons.1 hw with rfl | hw
    · exact ⟨hdescribed v (by simp), .inl rfl⟩
    · refine ih (fun u hu => hdescribed u (by simp [hu])) (fun u hu => hsignatures u ?_) w hw
      unfold takeSignature at hu
      split at hu
      · exact (List.mem_filter.1 hu).1
      · exact hu

/-! ## Labels of a body -/

namespace RawCode

variable {r : RawCode} {seen : List (Int × Label)} {frames : List (Nat × Frame)}
  {instructions : List (Instruction Label)}

/-- The places that markers may be at. -/
def places (r : RawCode) (instructions : List (Instruction Label)) : List Int :=
  (r.instructions.zip instructions).map (fun p => (p.1.1 : Int)) ++ [(r.length : Int)]

/-- The markers of a sort in a body are those of its places. -/
theorem filterMap_body {α : Type} {f : Item → Option α} (hf : ∀ i, f (.instruction i) = none)
    (r : RawCode) (m : Markers) (instructions : List (Instruction Label)) :
    (r.body m instructions).filterMap f = (r.places instructions).flatMap fun o =>
      (m.before o).filterMap f := by
  have hblocks (code : List ((Nat × Instruction Int) × Instruction Label)) :
      (code.flatMap fun p => m.before p.1.1 ++ [.instruction p.2]).filterMap f =
        (code.map fun p => (p.1.1 : Int)).flatMap fun o => (m.before o).filterMap f := by
    induction code with
    | nil => rfl
    | cons p code ih =>
      rw [List.flatMap_cons, List.filterMap_append, List.filterMap_append, ih, List.map_cons,
        List.flatMap_cons]
      simp [hf]
  unfold body places
  rw [List.filterMap_append, hblocks, List.flatMap_append]
  simp

/-- The markers of a sort at a place. -/
theorem filterMap_before {α : Type} (f : Item → Option α) (m : Markers) (o : Int) :
    (m.before o).filterMap f = (m.labels.at_ o).filterMap (fun l => f (.label l)) ++
      (m.lines.at_ o).filterMap (fun entry => f (.line entry.2)) ++
        (m.frames.at_ o).filterMap fun frame => f (.frame frame) := by
  unfold Markers.before
  rw [List.filterMap_append, List.filterMap_append, List.filterMap_map, List.filterMap_map,
    List.filterMap_map]
  rfl

/-- The labels of a body are those of its places. -/
theorem definitions_body (r : RawCode) (seen : List (Int × Label)) (frames : List (Nat × Frame))
    (instructions : List (Instruction Label)) :
    definitions (r.body (r.markers seen frames) instructions) =
      (r.places instructions).flatMap fun o => (seen.filter fun p => p.1 = o).map Prod.snd := by
  unfold definitions
  rw [filterMap_body fun _ => rfl]
  congr 1
  funext o
  rw [filterMap_before, labels_at]
  simp [Item.label?]

/-- The places are those of the instructions and the end of the code. -/
theorem mem_places (hlength : r.instructions.length = instructions.length) {o : Int}
    (ho : r.HasOffset o ∨ o = r.length) : o ∈ r.places instructions := by
  have hfirst : (r.instructions.zip instructions).map (fun p => (p.1.1 : Int)) =
      r.instructions.map fun p => (p.1 : Int) := by
    have hzip : (r.instructions.zip instructions).map Prod.fst = r.instructions :=
      List.map_fst_zip (Nat.le_of_eq hlength)
    conv_rhs => rw [← hzip, List.map_map]
    rfl
  unfold places
  rw [hfirst]
  rcases ho with ⟨p, hp, rfl⟩ | rfl
  · exact List.mem_append_left _ (List.mem_map.2 ⟨p, hp, rfl⟩)
  · simp

theorem nodup_places (hlength : r.instructions.length = instructions.length)
    (hr : InOrder r.length r.instructions) : (r.places instructions).Nodup := by
  have hfirst : (r.instructions.zip instructions).map (fun p => (p.1.1 : Int)) =
      (r.instructions.map Prod.fst).map fun n : Nat => (n : Int) := by
    have hzip : (r.instructions.zip instructions).map Prod.fst = r.instructions :=
      List.map_fst_zip (Nat.le_of_eq hlength)
    conv_rhs => rw [← hzip, List.map_map, List.map_map]
    rfl
  unfold places
  rw [hfirst, List.nodup_append]
  refine ⟨?_, by simp, ?_⟩
  · exact List.Nodup.map (fun _ _ h => Int.ofNat.inj h) (hr.increasing.imp Nat.ne_of_lt)
  · intro a ha b hb
    obtain ⟨n, hn, rfl⟩ := List.mem_map.1 ha
    obtain ⟨p, hp, rfl⟩ := List.mem_map.1 hn
    have hlt := hr.inside p hp
    rw [List.mem_singleton.1 hb]
    omega

variable {l : LabelledCode} {code : Code}

theorem Assembles.mem_definitions (h : r.Assembles seen l code) {offset : Int} {label : Label}
    (hknown : Known seen offset label) : label ∈ definitions code.body := by
  rw [h.body, definitions_body]
  refine List.mem_flatMap.2 ⟨offset, mem_places h.labelled.instructions.length_eq
    (h.checked.labels _ hknown), List.mem_map.2 ⟨(offset, label), ?_, rfl⟩⟩
  exact List.mem_filter.2 ⟨hknown, by simp⟩

theorem Assembles.nodup_definitions (h : r.Assembles seen l code)
    (hr : InOrder r.length r.instructions) : (definitions code.body).Nodup := by
  rw [h.body, definitions_body, List.nodup_flatMap]
  have hlabels : ∀ p ∈ seen, ∀ q ∈ seen, p.2 = q.2 → p = q :=
    fun p hp q hq heq => List.inj_on_of_nodup_map h.labels hp hq heq
  refine ⟨fun o _ => ?_, ?_⟩
  · exact h.labels.sublist (List.Sublist.map _ List.filter_sublist)
  · refine (nodup_places h.labelled.instructions.length_eq hr).imp fun hne => ?_
    intro label ha hb
    obtain ⟨p, hp, rfl⟩ := List.mem_map.1 ha
    obtain ⟨q, hq, heq⟩ := List.mem_map.1 hb
    simp only [List.mem_filter, decide_eq_true_eq] at hp hq
    exact hne (hp.2.symm.trans ((congrArg Prod.fst (hlabels _ hp.1 _ hq.1 heq.symm)).trans hq.2))

/-- The items of a body: markers of places, and the instructions. -/
theorem mem_body {m : Markers} {i : Item} (hi : i ∈ r.body m instructions) :
    (∃ o, i ∈ m.before o) ∨ ∃ j ∈ instructions, i = .instruction j := by
  rcases List.mem_append.1 hi with hi | hi
  · obtain ⟨p, hp, hi⟩ := List.mem_flatMap.1 hi
    rcases List.mem_append.1 hi with hi | hi
    · exact .inl ⟨_, hi⟩
    · exact .inr ⟨p.2, (List.of_mem_zip hp).2, List.mem_singleton.1 hi⟩
  · exact .inl ⟨_, hi⟩

/-- The items of a body: labels, lines, frames and instructions of the code attribute. -/
theorem Assembles.mem_body (h : r.Assembles seen l code) {i : Item} (hi : i ∈ code.body) :
    (∃ label, i = .label label) ∨ (∃ p ∈ r.lines.flatten, i = .line p.2.line) ∨
      (∃ p ∈ l.frames, i = .frame p.2) ∨ ∃ j ∈ l.instructions, i = .instruction j := by
  rw [h.body] at hi
  rcases RawCode.mem_body hi with ⟨o, hi⟩ | hinstruction
  · unfold Markers.before at hi
    rw [lines_at, frames_at] at hi
    simp only [List.mem_append, List.mem_map, List.mem_filter] at hi
    rcases hi with (⟨label, -, rfl⟩ | ⟨_, ⟨p, ⟨hp, -⟩, rfl⟩, rfl⟩) | ⟨_, ⟨p, ⟨hp, -⟩, rfl⟩, rfl⟩
    · exact .inl ⟨label, rfl⟩
    · exact .inr (.inl ⟨p, hp, rfl⟩)
    · exact .inr (.inr (.inl ⟨p, hp, rfl⟩))
  · exact .inr (.inr (.inr hinstruction))

/-- A frame that has been labelled comes from a raw frame. -/
theorem Assembles.exists_frame (h : r.Assembles seen l code) (hr : r.IsSound) {p : Nat × Frame}
    (hp : p ∈ l.frames) : ∃ f, IsRawFrame f ∧ f.Matches (Known seen) p.2 := by
  obtain ⟨f, hf, -, hmatches⟩ := Result.exists_of_mem_right h.labelled.frames hp
  exact ⟨f.frame, hr.frames f hf, hmatches⟩

/-- Only known labels are referred to by items. -/
theorem Assembles.known_of_mem_references (h : r.Assembles seen l code) (hr : r.IsSound) {i : Item}
    (hi : i ∈ code.body) {label : Label} (hlabel : label ∈ i.references) :
    ∃ offset, Known seen offset label := by
  rcases h.mem_body hi with ⟨_, rfl⟩ | ⟨_, -, rfl⟩ | ⟨p, hp, rfl⟩ | ⟨j, hj, rfl⟩
  · cases hlabel
  · cases hlabel
  · obtain ⟨f, hf, hmatches⟩ := h.exists_frame hr hp
    have hlabel : label ∈ (p.2.locals ++ p.2.stack).filterMap VerificationType.label? := hlabel
    rw [List.filterMap_append, List.mem_append] at hlabel
    rcases hlabel with hlabel | hlabel
    · exact exists_of_mem_labels hf.locals hmatches.locals hlabel
    · exact exists_of_mem_labels hf.stack hmatches.stack hlabel
  · obtain ⟨p, -, hmatches⟩ := Result.exists_of_mem_right h.labelled.instructions hj
    obtain ⟨offset, -, hknown⟩ := Result.exists_of_mem_right hmatches.targets hlabel
    exact ⟨offset, hknown⟩

/-- The code that is put together of a sound attribute is sound. -/
theorem Assembles.isSound (h : r.Assembles seen l code) (hr : r.IsSound) : code.IsSound where
  maxima := h.maxima ▸ hr.maxima
  items := by
    intro i hi
    rcases h.mem_body hi with ⟨_, rfl⟩ | ⟨p, hp, rfl⟩ | ⟨p, hp, rfl⟩ | ⟨j, hj, rfl⟩
    · trivial
    · obtain ⟨table, htable, hp⟩ := List.mem_flatten.1 hp
      have hlines := (map_fst_flatten_numberLines r.tables.lines).2
      have hmem : table.map Prod.snd ∈ r.tables.lines := by
        rw [← hlines]
        exact List.mem_map.2 ⟨table, htable, rfl⟩
      have hline : p.2.line < 0x10000 := hr.lines _ hmem p.2 (List.mem_map.2 ⟨p, hp, rfl⟩)
      exact isInt_ofNat (by omega)
    · obtain ⟨f, hf, hmatches⟩ := h.exists_frame hr hp
      exact ⟨hmatches.kind ▸ hf.kind, forall_isSound hf.locals hmatches.locals,
        forall_isSound hf.stack hmatches.stack, hmatches.chop ▸ hf.chop⟩
    · obtain ⟨p, hp, hmatches⟩ := Result.exists_of_mem_right h.labelled.instructions hj
      exact hmatches.isSound (hr.instructions p hp)
  locals := by
    intro v hv
    rw [h.localVariables] at hv
    obtain ⟨w, hw, hmatches⟩ := Result.exists_of_mem_right h.labelled.locals hv
    obtain ⟨hslot, htyped⟩ := joinVariables_spec hr.described hr.signatures w hw
    refine ⟨hmatches.descriptor ▸ hmatches.signature ▸ htyped, ?_⟩
    rw [← hmatches.slot]
    exact isInt_ofNat (by omega)
  closed := by
    refine ⟨h.nodup_definitions hr.inOrder, fun i hi label hlabel => ?_, fun handler hhandler => ?_,
      fun v hv => ?_⟩
    · obtain ⟨offset, hknown⟩ := h.known_of_mem_references hr hi hlabel
      exact h.mem_definitions hknown
    · rw [h.handlers] at hhandler
      obtain ⟨raw, -, hmatches⟩ := Result.exists_of_mem_right h.labelled.handlers hhandler
      intro label hlabel
      simp only [Handler.references, List.mem_cons, List.not_mem_nil, or_false] at hlabel
      rcases hlabel with rfl | rfl | rfl
      · exact h.mem_definitions hmatches.start
      · exact h.mem_definitions hmatches.stop
      · exact h.mem_definitions hmatches.target
    · rw [h.localVariables] at hv
      obtain ⟨raw, -, hmatches⟩ := Result.exists_of_mem_right h.labelled.locals hv
      intro label hlabel
      simp only [LocalVariable.references, List.mem_cons, List.not_mem_nil, or_false] at hlabel
      rcases hlabel with rfl | rfl
      · exact h.mem_definitions hmatches.start
      · exact h.mem_definitions hmatches.stop

end RawCode

end ClassTree.Decoding
