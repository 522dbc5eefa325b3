/-
# ClassTree.Proofs.ReadBack.KeptCode — code whose instructions keep their lengths

If every instruction of a method that has been read is written with the length that it had, every
label leads to the code offset that it was issued for (`IsKeptIn.exists_resolve_eq`). What refers to
code offsets is then read back as it was: the instructions and the handlers, the variables, the
frames and the lines. Signatures come back grouped by the variables that they belong to, and lines
ordered by their offsets. That makes no difference to what is put together: joining looks for
signatures variable by variable, and the markers of an offset are the lines of that offset
(`SaysAgain.of_assemble`).
-/
import ClassTree.Proofs.ReadBack.ShortForms

namespace ClassTree

open Decoding Encoding Encoder
open ModifiedUtf8 (stored)

variable {P : Pool} {t : Table} {layout : Layout}

/-! ## Code that keeps its lengths -/

namespace Decoding.RawCode

/-- The code that is put together of a code attribute is laid out with the lengths that its
instructions had. -/
structure IsKeptIn (r : RawCode) (seen : List (Int × Label)) (l : LabelledCode) (code : Code) (P : Pool)
    (layout : Layout) : Prop where
  assembles : r.Assembles seen l code
  isSound : r.IsSound
  isDrawn : r.IsDrawn
  start : startOf r.length r.instructions = 0
  targets : ∀ p ∈ r.instructions, p.2.HasTargets
  inside : ∀ p ∈ r.instructions, ∀ target ∈ p.2.targets, 0 ≤ target ∧ target < r.length
  short : List.Forall₂ (fun p n => Instruction.HasShortLength p.2 n) r.instructions r.lengths
  fixed : Fixed P (Layout.of code.body) layout
  lengths : layout.lengthsFrom 0 code.body = r.lengths
  signatures : (r.tables.signatures.map RawVariable.key).Nodup
  frames : AreSpaced 0 r.tables.frames

/-- What is collected of the instructions of a body that are placed. -/
theorem filterMap_placed_instruction {β : Type} {f : Nat × Item → Option β}
    (hf : ∀ offset item, item.isMarker = true → f (offset, item) = none) (r : RawCode) (m : Markers)
    (instructions : List (Instruction Label)) : (r.placed m instructions).filterMap f =
      (r.instructions.zip instructions).filterMap fun p => f (p.1.1, .instruction p.2) := by
  have hnone (offset : Nat) (place : Int) : ((m.before place).map (Prod.mk offset)).filterMap f = [] := by
    refine List.filterMap_eq_nil_iff.2 fun q hq => ?_
    obtain ⟨item, hitem, rfl⟩ := List.mem_map.1 hq
    exact hf offset item (isMarker_of_mem_before hitem)
  unfold placed
  rw [List.filterMap_append, hnone, List.append_nil, List.filterMap_flatMap,
    List.filterMap_eq_flatMap_toList]
  refine List.flatMap_congr fun p _ => ?_
  rw [block, List.map_append, List.filterMap_append, hnone, List.nil_append]
  cases hp : f (p.1.1, .instruction p.2) <;> simp [hp]

/-- The instruction of an item at an offset as it is read back. -/
def readAt (layout : Layout) (p : Nat × Item) : Option (Nat × Instruction Int) :=
  p.2.instruction?.map fun i => (p.1, (i.placed layout).readAs stored)

namespace IsKeptIn

variable {r : RawCode} {seen : List (Int × Label)} {l : LabelledCode} {code : Code}
  (h : r.IsKeptIn seen l code P layout)
include h

/-- A label leads to the code offset that it was issued for. -/
theorem exists_resolve_eq {offset : Int} {label : Label} (hknown : Known seen offset label) :
    ∃ n : Nat, offset = n ∧ layout.resolve label = .ok n := by
  obtain ⟨n, rfl⟩ : ∃ n : Nat, offset = n := by
    rcases h.assembles.checked.labels _ hknown with ⟨p, -, heq⟩ | heq
    · exact ⟨p.1, heq.symm⟩
    · exact ⟨r.length, heq⟩
  have hunique := existsUnique_label (h.assembles.nodup_definitions h.isSound.inOrder)
    (h.assembles.mem_definitions hknown)
  obtain ⟨position, hat⟩ := hunique.exists
  have hresolve : layout.resolve label = .ok (layout.offset position) := by
    obtain ⟨rooms, far, -, -, rfl, -⟩ := Layout.fixed_of h.fixed
    exact resolve_of_existsUnique hunique hat
  have hsame := h.assembles.eq_of_resolve h.isSound.inOrder h.start h.fixed h.lengths hknown hresolve
  exact ⟨n, rfl, hsame ▸ hresolve⟩

theorem labelOffset_eq {offset : Nat} {label : Label} (hknown : Known seen offset label) :
    layout.labelOffset label = offset := by
  obtain ⟨n, hn, hresolve⟩ := h.exists_resolve_eq hknown
  rw [Layout.labelOffset_eq hresolve, Int.ofNat.inj hn]

theorem placed_eq {i : Instruction Int} {j : Instruction Label} (hmatches : i.Matches (Known seen) j) :
    j.placed layout = i := by
  have hleads {offset : Int} {label : Label} (hknown : Known seen offset label) :
      layout.Leads label offset := by
    obtain ⟨n, rfl, hresolve⟩ := h.exists_resolve_eq hknown
    exact ⟨n, hresolve, rfl⟩
  have hall {offsets : List Int} {labels : List Label} (hs : List.Forall₂ (Known seen) offsets labels) :
      List.Forall₂ layout.Leads labels offsets := hs.flip.imp fun _ _ => hleads
  refine (Instruction.Matches.eq_placed ?_).symm
  cases hmatches with
  | jump op hone => exact .jump op (hleads hone)
  | tableSwitch low high hone hs => exact .tableSwitch low high (hleads hone) (hall hs)
  | lookupSwitch keys hone hs => exact .lookupSwitch keys (hleads hone) (hall hs)
  | _ => constructor

/-- Every instruction is written in its short form if it has one. -/
theorem isShortAt {position : Nat} {i : Instruction Label}
    (hat : code.body[position]? = some (.instruction i)) : Layout.IsShortAt P layout position i := by
  have hlength := h.assembles.labelled.instructions.length_eq
  refine Layout.isShortAt_of_hasShortLength h.fixed hat (Layout.forall_of_lengthsFrom ?_ hat)
  rw [h.lengths]
  conv in code.body => rw [h.assembles.body]
  rw [filterMap_instruction_body r _ hlength]
  -- an instruction has the length that it was read with
  have hboth := h.short
  have hmatches := h.assembles.labelled.instructions
  generalize r.lengths = lengths at hboth
  generalize r.instructions = is at hboth hmatches
  generalize l.instructions = js at hmatches
  clear hlength
  induction hmatches generalizing lengths with
  | nil =>
    obtain rfl := List.forall₂_nil_left_iff.1 hboth
    exact .nil
  | cons hij _ ih =>
    obtain ⟨n, rest, hn, hrest, rfl⟩ := List.forall₂_cons_left_iff.1 hboth
    exact .cons (hn.of_matches hij) (ih rest hrest)

/-- The code is as long as it was. -/
theorem offset_length : layout.offset code.body.length = r.length := by
  have hend := (Layout.takes_lengthsFrom h.fixed).offset_end
  have hsum := h.isSound.inOrder.startOf_add_sum
  have hzero : layout.offset 0 = 0 := by
    obtain ⟨rooms, far, -, -, rfl, -⟩ := Layout.fixed_of h.fixed
    exact Layout.offset_zero
  rw [h.lengths, Nat.zero_add, hzero, Nat.zero_add] at hend
  rw [h.start, Nat.zero_add] at hsum
  exact hend.trans hsum

/-- The items of the body stand at their code offsets. -/
theorem map_offset : code.body.zipIdx.map (fun p => (layout.offset p.2, p.1)) =
    r.placed (r.markers seen l.frames) l.instructions :=
  h.assembles.map_offset h.isSound.inOrder h.start h.fixed h.lengths

theorem mem_body {i : Instruction Label} (hi : i ∈ l.instructions) : .instruction i ∈ code.body := by
  have hlength := h.assembles.labelled.instructions.length_eq
  have hall := filterMap_instruction_body r (r.markers seen l.frames) hlength
  rw [← h.assembles.body] at hall
  rw [← hall] at hi
  obtain ⟨item, hitem, heq⟩ := List.mem_filterMap.1 hi
  cases item with
  | instruction j => exact Option.some.inj heq ▸ hitem
  | _ => cases heq

/-- An instruction of the body is a labelled one that has been read. -/
theorem exists_of_mem_body {i : Instruction Label} (hi : .instruction i ∈ code.body) :
    ∃ p ∈ r.instructions, p.2.Matches (Known seen) i := by
  have hmatches := h.assembles.labelled.instructions
  have hmem : i ∈ code.body.filterMap Item.instruction? := List.mem_filterMap.2 ⟨_, hi, rfl⟩
  rw [h.assembles.body, filterMap_instruction_body r _ hmatches.length_eq] at hmem
  exact Result.exists_of_mem_right hmatches hmem

/-- The instructions of a class that has been read are read back as they were: the labels that were
made up for offsets are resolved to the same offsets again, if no instruction has changed its
length. -/
theorem codeOf_eq (hproper : ∀ i ∈ code.body, i.IsProper)
    (hfields : ∀ i, .instruction i ∈ code.body → i.NamesFields) :
    codeOf stored layout code.body = r.instructions := by
  have hcode (p : Item × Nat) (hp : p ∈ code.body.zipIdx) : codeOfItem stored layout p =
      (readAt layout (layout.offset p.2, p.1)).toList := by
    obtain ⟨item, position⟩ := p
    have hat := List.mem_zipIdx_iff_getElem?.1 hp
    cases item with
    | instruction i =>
      show (shortRow layout position (i.placed layout)).zipIdx.map _ = _
      rw [(h.isShortAt hat).shortRow_eq]
      rfl
    | _ => rfl
  have hbody : codeOf stored layout code.body =
      (r.placed (r.markers seen l.frames) l.instructions).filterMap (readAt layout) := by
    unfold codeOf
    rw [List.flatMap_congr hcode, ← List.filterMap_eq_flatMap_toList, ← h.map_offset, List.filterMap_map]
    rfl
  have hmarkers (offset : Nat) (item : Item) (hmarker : item.isMarker = true) :
      readAt layout (offset, item) = none := by
    cases item with
    | instruction i => cases hmarker
    | _ => rfl
  have hlength := h.assembles.labelled.instructions.length_eq
  rw [hbody, filterMap_placed_instruction hmarkers]
  -- a labelled instruction has the targets of the one that it was labelled from, and is stored as
  -- it is
  have hread : ∀ p ∈ r.instructions.zip l.instructions,
      readAt layout (p.1.1, .instruction p.2) = some p.1 := by
    intro p hp
    have hmatches := (List.forall₂_iff_zip.1 h.assembles.labelled.instructions).2 hp
    obtain ⟨hraw, hlabelled⟩ := List.of_mem_zip hp
    have hmem : Item.instruction p.2 ∈ code.body := h.mem_body hlabelled
    have hsame := Instruction.readAs_eq (h.isSound.instructions _ hraw)
      ((hproper _ hmem).of_matches hmatches) (h.isDrawn.instructions _ hraw)
      ((hfields _ hmem).of_matches hmatches)
    show some (p.1.1, _) = _
    rw [h.placed_eq hmatches, hsame]
  rw [List.filterMap_congr hread]
  exact (congrFun (List.filterMap_eq_map (f := Prod.fst)) _).trans
    (List.map_fst_zip (Nat.le_of_eq hlength))

/-- The handlers are read back as they were. -/
theorem map_rawHandler (htypes : ∀ handler ∈ code.handlers, handler.type ≠ some []) :
    code.handlers.map (rawHandler layout) = r.handlers := by
  rw [h.assembles.handlers] at htypes ⊢
  rw [← List.forall₂_eq_eq_eq, List.forall₂_map_left_iff]
  have hraw := (List.forall₂_and_left _ _).2
    ⟨fun raw hraw => h.isDrawn.handlers.2 raw hraw, h.assembles.labelled.handlers⟩
  have hall := (List.forall₂_and_left _ _).2 ⟨htypes, hraw.flip⟩
  refine hall.imp fun handler raw ⟨htype, hstorable, hmatches⟩ => ?_
  rw [hmatches.type] at hstorable
  unfold rawHandler
  rw [h.labelOffset_eq hmatches.start, h.labelOffset_eq hmatches.stop, h.labelOffset_eq hmatches.target,
    storedName_eq hstorable htype, ← hmatches.type]

/-- The variables that have a type of some sort are read back as the entries that they stand for. -/
theorem map_rawVariable {typeOf : LocalVariable → Option Text} {typeOf' : JoinedVariable → Option Text}
    (htype : ∀ j v, JoinedVariable.Matches (Known seen) j v → typeOf' j = typeOf v)
    (hstorable : ∀ j ∈ joinVariables r.tables.described r.tables.signatures, ∀ s ∈ typeOf' j,
      s.IsStorable) :
    (typedVariables typeOf code.localVariables).map (rawVariable layout) =
      typedEntries typeOf' (joinVariables r.tables.described r.tables.signatures) := by
  have hdrawn := joinVariables_isDrawn h.isDrawn.tables.locals
  have hall := (List.forall₂_and_left _ _).2
    ⟨fun j hj => (⟨(hdrawn j hj).1, hstorable j hj⟩ : j.variable_.IsDrawn ∧ ∀ s ∈ typeOf' j,
      s.IsStorable),
      h.assembles.labelled.locals⟩
  rw [h.assembles.localVariables]
  unfold typedVariables typedEntries
  rw [List.map_filterMap]
  generalize l.localVariables = vs at hall
  generalize joinVariables _ _ = js at hall
  induction hall with
  | nil => rfl
  | @cons j v js vs hj _ ih =>
    obtain ⟨⟨hdrawn, hstorable⟩, hmatches⟩ := hj
    rw [List.filterMap_cons, List.filterMap_cons, ih, ← htype j v hmatches]
    cases htyped : typeOf' j with
    | none => rfl
    | some type =>
      have hstop := h.labelOffset_eq hmatches.stop
      have hslot : v.slot.toNat = j.variable_.slot := by rw [← hmatches.slot, Int.toNat_natCast]
      have hsame : rawVariable layout (v, type) = { j.variable_ with descriptor := type } := by
        unfold rawVariable
        rw [h.labelOffset_eq hmatches.start, hstop, Nat.add_sub_cancel_left, ← hmatches.name,
          hdrawn.name.stored_eq, (hstorable type htyped).stored_eq, hslot]
      exact congrArg (· :: _) hsame

end IsKeptIn

end Decoding.RawCode

/-! ## Joined variables -/

namespace Decoding

/-- Joining looks for signatures variable by variable, so it finds the same ones in grouped
signatures. -/
theorem joinVariables_groupSignatures (described signatures : List RawVariable) :
    joinVariables described (groupSignatures described signatures) =
      joinVariables described signatures := by
  induction described generalizing signatures with
  | nil => rfl
  | cons v described ih =>
    -- those for the first variable come first, and there are none for it behind them
    have hall : ∀ w ∈ signatures.filter v.sameVariable, v.sameVariable w = true := fun w hw =>
      (List.mem_filter.1 hw).2
    have hnone : ∀ w ∈ groupSignatures described (signatures.filter fun w => !v.sameVariable w),
        v.sameVariable w = false := fun w hw => by
      simpa using (List.mem_filter.1 ((groupSignatures_perm _ _).subset hw)).2
    have hfind : (groupSignatures (v :: described) signatures).find? v.sameVariable =
        signatures.find? v.sameVariable := by
      have hbehind : (groupSignatures described (signatures.filter fun w => !v.sameVariable w)).find?
          v.sameVariable = none := List.find?_eq_none.2 fun w hw => by simp [hnone w hw]
      rw [groupSignatures, List.find?_append, hbehind, Option.or_none, List.find?_filter]
      exact congrArg (List.find? · signatures) (funext fun w => by simp)
    have hrest : (groupSignatures (v :: described) signatures).filter (fun w => !v.sameVariable w) =
        groupSignatures described (signatures.filter fun w => !v.sameVariable w) := by
      rw [groupSignatures, List.filter_append, List.filter_eq_nil_iff.2 fun w hw => by simp [hall w hw],
        List.nil_append]
      exact List.filter_eq_self.2 fun w hw => by simp [hnone w hw]
    have hfirst : (takeSignature (groupSignatures (v :: described) signatures) v).1 =
        (takeSignature signatures v).1 := by
      unfold takeSignature
      rw [hfind]
      cases signatures.find? v.sameVariable <;> rfl
    rw [joinVariables, joinVariables, hfirst, takeSignature_snd, takeSignature_snd, hrest, ih]

end Decoding

/-! ## Markers in the order of their offsets -/

section

variable {α : Type} {key : α → Nat} {keys : List Nat} {as : List α}

/-- What is found key by key is in the order of the keys. -/
theorem flatMap_filter_eq (hkeys : keys.Pairwise (· < ·)) (has : as.Pairwise fun a b => key a < key b)
    (hmem : ∀ a ∈ as, key a ∈ keys) : (keys.flatMap fun k => as.filter fun a => key a = k) = as := by
  induction keys generalizing as with
  | nil =>
    cases as with
    | nil => rfl
    | cons a as => cases hmem a List.mem_cons_self
  | cons k keys ih =>
    obtain ⟨hfirst, hkeys⟩ := List.pairwise_cons.1 hkeys
    have hbehind : (keys.flatMap fun k' => as.filter fun a => key a = k') =
        as.filter fun a => !decide (key a = k) := by
      have hin : ∀ a ∈ as.filter fun a => !decide (key a = k), key a ∈ keys := fun a ha => by
        obtain ⟨ha, hne⟩ := List.mem_filter.1 ha
        exact (List.mem_cons.1 (hmem a ha)).resolve_left (by simpa using hne)
      rw [← ih hkeys (has.sublist List.filter_sublist) hin]
      refine List.flatMap_congr fun k' hk' => ?_
      have hne := Nat.ne_of_gt (hfirst k' hk')
      rw [List.filter_filter]
      refine List.filter_congr fun a _ => ?_
      by_cases h : key a = k' <;> simp [h, hne]
    -- the first key is the least one, so what has it comes first
    rw [List.flatMap_cons, hbehind]
    have hplace (a : α) : (decide (key a = k) = true) ↔ (if key a = k then 0 else 1) = 0 := by simp
    refine filter_append_filter_eq hplace ?_
    refine has.imp_of_mem fun {a b} ha hb hlt => ?_
    have hle : k ≤ key a := by
      rcases List.mem_cons.1 (hmem a ha) with heq | hin
      · exact Nat.le_of_eq heq.symm
      · exact Nat.le_of_lt (hfirst _ hin)
    have hne : key b ≠ k := by omega
    rw [if_neg hne]
    split <;> omega

/-- What is found key by key is found for each of them. -/
theorem filter_flatMap_filter (hkeys : keys.Nodup) (hmem : ∀ a ∈ as, key a ∈ keys) (k : Nat) :
    ((keys.flatMap fun k' => as.filter fun a => key a = k').filter fun a => key a = k) =
      as.filter fun a => key a = k := by
  induction keys generalizing as with
  | nil =>
    cases as with
    | nil => rfl
    | cons a as => cases hmem a List.mem_cons_self
  | cons k' keys ih =>
    obtain ⟨hnot, hkeys⟩ := List.nodup_cons.1 hkeys
    have hbehind : (keys.flatMap fun k'' => as.filter fun a => key a = k'') =
        keys.flatMap fun k'' => (as.filter fun a => !decide (key a = k')).filter fun a =>
          key a = k'' := by
      refine List.flatMap_congr fun k'' hk'' => ?_
      have hne : k'' ≠ k' := fun heq => hnot (heq ▸ hk'')
      rw [List.filter_filter]
      refine List.filter_congr fun a _ => ?_
      by_cases h : key a = k'' <;> simp [h, hne]
    rw [List.flatMap_cons, hbehind, List.filter_append, ih hkeys fun a ha => by
      obtain ⟨ha, hne⟩ := List.mem_filter.1 ha
      exact (List.mem_cons.1 (hmem a ha)).resolve_left (by simpa using hne)]
    rw [List.filter_filter, List.filter_filter]
    by_cases heq : k = k'
    · subst heq
      have hnone : as.filter (fun a => decide (key a = k) && !decide (key a = k)) = [] :=
        List.filter_eq_nil_iff.2 fun a _ => by simp
      rw [hnone, List.append_nil]
      exact List.filter_congr fun a _ => by simp
    · have hnone : as.filter (fun a => decide (key a = k) && decide (key a = k')) = [] :=
        List.filter_eq_nil_iff.2 fun a _ => by simp; omega
      rw [hnone, List.nil_append]
      refine List.filter_congr fun a _ => ?_
      by_cases h : key a = k <;> simp [h, heq]

end

namespace Decoding.RawCode

variable {r : RawCode} {seen : List (Int × Label)} {l : LabelledCode} {code : Code}

/-- Where markers can stand: before the instructions and at the end of the code. -/
def starts (r : RawCode) : List Nat := r.instructions.map Prod.fst ++ [r.length]

theorem pairwise_starts (h : InOrder r.length r.instructions) : r.starts.Pairwise (· < ·) := by
  refine List.pairwise_append.2 ⟨h.increasing, List.pairwise_singleton _ _, fun o ho o' ho' => ?_⟩
  obtain ⟨p, hp, rfl⟩ := List.mem_map.1 ho
  rw [List.mem_singleton.1 ho']
  exact h.inside p hp

theorem HasOffset.mem_starts {offset : Nat} (h : r.HasOffset offset) : offset ∈ r.starts := by
  obtain ⟨p, hp, heq⟩ := h
  exact List.mem_append_left _ (List.mem_map.2 ⟨p, hp, Int.ofNat.inj heq⟩)

/-- What is collected of the markers of a body that are placed. -/
theorem filterMap_placed_marker {β : Type} {f : Nat × Item → Option β}
    (hf : ∀ offset i, f (offset, .instruction i) = none) (m : Markers)
    {instructions : List (Instruction Label)} (hlength : r.instructions.length = instructions.length) :
    (r.placed m instructions).filterMap f =
      r.starts.flatMap fun o : Nat => (m.before o).filterMap fun item => f (o, item) := by
  have hzip : r.instructions = (r.instructions.zip instructions).map Prod.fst :=
    (List.map_fst_zip (Nat.le_of_eq hlength)).symm
  unfold placed starts
  rw [List.filterMap_append, List.filterMap_flatMap, List.flatMap_append, List.flatMap_singleton]
  conv_rhs => rw [hzip, List.map_map, List.flatMap_map]
  refine congrArg₂ _ (List.flatMap_congr fun p _ => ?_) (List.filterMap_map ..)
  rw [block, List.map_append, List.filterMap_append, List.filterMap_map]
  simp [hf]

/-- A frame of an item that is placed. -/
def frameAt? (p : Nat × Item) : Option (Nat × Frame) := p.2.frame?.map (Prod.mk p.1)

namespace IsKeptIn

variable (h : r.IsKeptIn seen l code P layout)
include h

/-- The frames of the body are those that have been read, at their offsets. -/
theorem map_ownFrames :
    (ownFrames code.body).map (fun f => (layout.offset f.1, f.2)) = l.frames := by
  have hplaced : (ownFrames code.body).map (fun f => (layout.offset f.1, f.2)) =
      (r.placed (r.markers seen l.frames) l.instructions).filterMap frameAt? := by
    rw [← h.map_offset, List.filterMap_map]
    unfold ownFrames
    rw [List.map_filterMap]
    refine List.filterMap_congr fun p _ => ?_
    obtain ⟨item, position⟩ := p
    cases item <;> rfl
  have hone (o : Nat) : ((r.markers seen l.frames).before o).filterMap (fun item => frameAt? (o, item)) =
      l.frames.filter fun f => f.1 = o := by
    rw [filterMap_before, frames_at]
    simp only [frameAt?, Item.frame?, Option.map_none, Option.map_some, List.filterMap_none,
      List.filterMap_map, List.nil_append, Function.comp_def, Int.natCast_inj]
    refine (List.filterMap_congr fun f hf => ?_).trans List.filterMap_some
    rw [← of_decide_eq_true (List.mem_filter.1 hf).2]
  have hmatches := h.assembles.labelled.frames
  rw [hplaced, filterMap_placed_marker (fun _ _ => rfl) _ h.assembles.labelled.instructions.length_eq]
  simp only [hone]
  refine flatMap_filter_eq (pairwise_starts h.isSound.inOrder) ?_ fun f hf => ?_
  · have hoffsets : l.frames.map Prod.fst = r.tables.frames.map RawFrame.offset := by
      rw [← List.forall₂_eq_eq_eq, List.forall₂_map_left_iff, List.forall₂_map_right_iff]
      exact hmatches.flip.imp fun f raw hraw => hraw.1.symm
    have hpairwise := h.frames.pairwise.2
    rw [← hoffsets] at hpairwise
    exact List.pairwise_map.1 hpairwise
  · obtain ⟨raw, hraw, heq, -⟩ := Result.exists_of_mem_right hmatches hf
    exact heq ▸ (h.assembles.checked.frames raw hraw).mem_starts

/-- The lines of the body are those that have been read, at their offsets. -/
theorem toList_linesOf : (linesOf layout code.body).toList = (r.starts.flatMap fun o =>
    r.tables.lines.flatten.filter fun e => e.offset = o).map RawLine.entry := by
  rw [Encoding.toList_linesOf, h.map_offset,
    filterMap_placed_marker (fun _ _ => rfl) _ h.assembles.labelled.instructions.length_eq,
    List.map_flatMap]
  refine List.flatMap_congr fun o _ => ?_
  rw [filterMap_before, lines_at, ← r.map_snd_flatten_lines, List.filter_map, List.map_map]
  simp only [lineAt?, List.filterMap_none, List.filterMap_map, List.nil_append, List.append_nil,
    Function.comp_def, Int.natCast_inj]
  rw [← List.filterMap_eq_map]
  refine List.filterMap_congr fun p hp => ?_
  have hoffset : p.2.offset = o := of_decide_eq_true (List.mem_filter.1 hp).2
  rw [← hoffset]
  rfl

/-- A type leads to the place that it names, and is stored as it is. -/
theorem readAs?_eq {v : VerificationType} {v' : VerificationType} (hmatches : v.Matches (Known seen) v')
    (hraw : IsRawType v) (hdrawn : v.IsDrawn) (hproper : v' ≠ .object none) :
    v'.readAs? stored layout = some v := by
  cases hmatches with
  | @site p label hknown =>
    obtain ⟨n, hn, hresolve⟩ := h.exists_resolve_eq hknown
    obtain rfl : p = n := Int.ofNat.inj hn
    unfold Layout.resolve at hresolve
    show (layout.labels[label]?).map _ = _
    split at hresolve
    · next hfound =>
      cases hresolve
      rw [hfound]
      rfl
    · cases hresolve
  | same hnot =>
    cases v with
    | irregular => exact hraw.elim
    | object name =>
      cases name with
      | none => exact absurd rfl hproper
      | some n =>
        show some (VerificationType.object (some (stored n))) = _
        rw [(hdrawn n rfl).stored_eq]
    | uninitialized site =>
      cases site with
      | position p => exact absurd rfl (hnot p)
      | label => exact hraw.elim
    | _ => rfl

theorem areReadAs {vs vs' : List VerificationType}
    (hmatches : List.Forall₂ (VerificationType.Matches (Known seen)) vs vs')
    (hraw : ∀ v ∈ vs, IsRawType v) (hdrawn : ∀ v ∈ vs, v.IsDrawn)
    (hproper : ∀ v ∈ vs', v ≠ .object none) : AreReadAs stored layout vs' vs := by
  have hall := (List.forall₂_and_left _ _).2 ⟨fun v hv => (⟨hraw v hv, hdrawn v hv⟩ : _ ∧ _), hmatches⟩
  have hboth := (List.forall₂_and_left _ _).2 ⟨hproper, hall.flip⟩
  exact hboth.imp fun v' v ⟨hproper, ⟨hraw, hdrawn⟩, hmatches⟩ =>
    h.readAs?_eq hmatches hraw hdrawn hproper

/-- A frame is read back as it was, in the kind that it had. The distance to the frame before has
not changed, so a short kind still fits; types that point into the code find the same offset there.
-/
theorem isReadAs {f f' : Frame} {distance : Nat} (hmatches : f.Matches (Known seen) f')
    (hraw : IsRawFrame f) (hdrawn : f.IsDrawn) (hform : f.HasForm) (hwithin : f.IsWithin distance)
    (hproper : ∀ v ∈ f'.locals ++ f'.stack, v ≠ .object none) :
    f'.spelled.IsReadAs stored layout distance f := by
  have hlocals := h.areReadAs hmatches.locals hraw.locals hdrawn.locals.2 fun v hv =>
    hproper v (List.mem_append_left _ hv)
  have hstack := h.areReadAs hmatches.stack hraw.stack hdrawn.stack.2 fun v hv =>
    hproper v (List.mem_append_right _ hv)
  obtain ⟨kind, locals, stack, chop⟩ := f
  obtain ⟨kind', locals', stack', chop'⟩ := f'
  obtain ⟨rfl, -, -, rfl⟩ := hmatches
  dsimp only at hlocals hstack
  cases kind with
  | same =>
    obtain ⟨rfl, rfl, rfl⟩ := hform
    have hread : Frame.IsReadAs stored layout distance ⟨.same, locals', stack', 0⟩ _ :=
      .same locals' stack' 0
    rwa [if_pos (hwithin (.inl rfl))] at hread
  | sameExtended =>
    obtain ⟨rfl, rfl, rfl⟩ := hform
    exact .sameExtended locals' stack' 0
  | sameLocals1 =>
    obtain ⟨rfl, hlength, rfl⟩ := hform
    obtain ⟨v, rfl⟩ := List.length_eq_one_iff.1 hlength
    obtain ⟨v', rest, hv, -, rfl⟩ := List.forall₂_cons_right_iff.1 hstack
    have hread : Frame.IsReadAs stored layout distance ⟨.sameLocals1, locals', v' :: rest, 0⟩ _ :=
      .sameLocals1 locals' rest 0 hv
    rwa [if_pos (hwithin (.inr rfl))] at hread
  | sameLocals1Extended =>
    obtain ⟨rfl, hlength, rfl⟩ := hform
    obtain ⟨v, rfl⟩ := List.length_eq_one_iff.1 hlength
    obtain ⟨v', rest, hv, -, rfl⟩ := List.forall₂_cons_right_iff.1 hstack
    exact .sameLocals1Extended locals' rest 0 hv
  | chop =>
    obtain ⟨rfl, rfl, hlow, -⟩ := hform
    -- at least one local is chopped off, so the frame is not spelled as one that keeps them all
    have hspelled : Frame.spelled ⟨.chop, locals', stack', chop⟩ = ⟨.chop, locals', stack', chop⟩ := by
      show (if chop = 0 then _ else _) = _
      exact if_neg (by dsimp only at hlow; omega)
    rw [hspelled]
    exact .chop locals' stack' chop
  | append =>
    obtain ⟨⟨hlow, -⟩, rfl, rfl⟩ := hform
    have hne : locals' ≠ [] := by
      rintro rfl
      obtain rfl := List.forall₂_nil_left_iff.1 hlocals
      cases hlow
    have hspelled : Frame.spelled ⟨.append, locals', stack', 0⟩ = ⟨.append, locals', stack', 0⟩ :=
      if_neg hne
    rw [hspelled]
    exact .append stack' 0 hlocals
  | full =>
    obtain ⟨-, -, rfl⟩ := hform
    exact .full 0 hlocals hstack
  | unknown => exact hform.elim

/-- The frames are read back as they were. -/
theorem areReadBack (hproper : ∀ f, .frame f ∈ code.body → ∀ v ∈ f.locals ++ f.stack, v ≠ .object none) :
    AreReadBack stored layout 0 ((ownFrames code.body).map fun f => (f.1, f.2.spelled))
      r.tables.frames := by
  have hown : ∀ f ∈ ownFrames code.body, .frame f.2 ∈ code.body := by
    intro f hf
    obtain ⟨⟨item, position⟩, hitem, heq⟩ := List.mem_filterMap.1 hf
    have hat := List.mem_of_getElem? (List.mem_zipIdx_iff_getElem?.1 hitem)
    cases item with
    | frame f' =>
      cases heq
      exact hat
    | _ => cases heq
  have hmatches := h.assembles.labelled.frames
  rw [← h.map_ownFrames, List.forall₂_map_right_iff] at hmatches
  have hread : ∀ f ∈ r.tables.frames, IsRawFrame f.frame ∧ f.frame.IsDrawn := fun f hf =>
    ⟨h.isSound.frames f hf, h.isDrawn.tables.frames.2 f hf⟩
  have hall := (List.forall₂_and_left _ _).2 ⟨hread, hmatches⟩
  have hboth := (List.forall₂_and_left _ _).2 ⟨fun f hf => hproper f.2 (hown f hf), hall.flip⟩
  have hplaced := h.frames
  -- the induction is on frames alone, no matter that they are those of this code
  generalize ownFrames code.body = own at hboth
  generalize r.tables.frames = raws at hboth hplaced
  generalize 0 = next at hplaced ⊢
  clear hmatches hread hall hown
  induction hboth generalizing next with
  | nil => exact .nil next
  | @cons f raw own raws hf _ ih =>
    obtain ⟨position, f⟩ := f
    obtain ⟨offset, frame⟩ := raw
    obtain ⟨hproper, ⟨hraw, hdrawn⟩, rfl, hmatches⟩ := hf
    cases hplaced with
    | cons hnext hform hwithin hrest =>
      exact .cons hnext (h.isReadAs hmatches hraw hdrawn hform hwithin hproper) (ih _ hrest)

end IsKeptIn

/-! ## Code attributes that say the same again -/

/-- Another code attribute says the same, with its signatures and its lines in an order of their
own. -/
structure SaysAgain (r r' : RawCode) : Prop where
  maxima : r'.maxima = r.maxima
  length : r'.length = r.length
  handlers : r'.handlers = r.handlers
  instructions : r'.instructions = r.instructions
  locals : joinVariables r'.tables.described r'.tables.signatures =
    joinVariables r.tables.described r.tables.signatures
  frames : r'.tables.frames = r.tables.frames
  lines : ∀ o, (r'.tables.lines.flatten.filter fun e => e.offset = o) =
    r.tables.lines.flatten.filter fun e => e.offset = o
  attributes : r'.tables.attributes = r.tables.attributes

/-- Code that keeps its lengths is read back as code that says the same. -/
theorem IsKeptIn.saysAgain (h : r.IsKeptIn seen l code P layout) {m : Method} {r' : RawCode}
    {sizes : Maxima} {frames : List (Nat × Frame)} (hm : m.code? = some code)
    (hread : r'.IsReadOf layout sizes frames m) (hsizes : sizes = code.maxima)
    (hframes : frames = ownFrames code.body)
    (hlines : r'.tables.lines.flatten.map RawLine.entry = (linesOf layout code.body).toList)
    (hattributes : r'.tables.attributes = code.attributes) (hproper : ∀ i ∈ code.body, i.IsProper)
    (hfields : ∀ i, .instruction i ∈ code.body → i.NamesFields)
    (htypes : ∀ handler ∈ code.handlers, handler.type ≠ some []) : r.SaysAgain r' := by
  obtain ⟨hbody, hlocals, -, -⟩ := Method.eq_of_code? hm
  have hhandlers : m.handlers = code.handlers := by
    obtain ⟨maxima, -, rfl⟩ := Option.map_eq_some_iff.1 hm
    rfl
  have hstorable := joinVariables_isDrawn h.isDrawn.tables.locals
  have hdescribed : r'.tables.described = r.tables.described := by
    rw [hread.described, hlocals, h.map_rawVariable (fun _ _ hv => hv.descriptor) fun j hj s hs =>
      ((hstorable j hj).2.1 s hs).1, typedEntries_descriptor]
  have hsignatures : r'.tables.signatures =
      groupSignatures r.tables.described r.tables.signatures := by
    rw [hread.signatures, hlocals, h.map_rawVariable (fun _ _ hv => hv.signature) fun j hj s hs =>
      ((hstorable j hj).2.2 s hs).1, typedEntries_signature _ h.signatures]
    exact foldl_putSignature_eq (((groupSignatures_perm _ _).map _).symm.nodup h.signatures)
  exact {
    maxima := by rw [hread.maxima, hsizes, h.assembles.maxima]
    length := by rw [hread.length, hbody, h.offset_length]
    handlers := by rw [hread.handlers, hhandlers, h.map_rawHandler htypes]
    instructions := by rw [hread.instructions, hbody, h.codeOf_eq hproper hfields]
    locals := by rw [hdescribed, hsignatures, joinVariables_groupSignatures]
    frames := by
      have hback := hread.frames
      rw [hframes] at hback
      exact hback.unique (h.areReadBack fun f hf => hproper (.frame f) hf)
    lines := fun o => by
      rw [h.toList_linesOf] at hlines
      rw [List.map_injective_iff.2 RawLine.entry_injective hlines]
      refine filter_flatMap_filter ((pairwise_starts h.isSound.inOrder).imp Nat.ne_of_lt)
        (fun e he => ?_) o
      rw [← r.map_snd_flatten_lines] at he
      obtain ⟨p, hp, rfl⟩ := List.mem_map.1 he
      obtain ⟨table, htable, hp⟩ := List.mem_flatten.1 hp
      exact (h.assembles.checked.lines table htable p hp).mem_starts
    attributes := by rw [hattributes, h.assembles.attributes] }

namespace SaysAgain

variable {r' : RawCode} (h : r.SaysAgain r')
include h

theorem label_eq : r'.label = r.label := by
  unfold label
  rw [labelVariables_eq, labelVariables_eq, h.handlers, h.instructions, h.locals, h.frames]

/-- The markers of an offset are the same. -/
theorem before_eq (seen : List (Int × Label)) (frames : List (Nat × Frame)) (o : Nat) :
    (r'.markers seen frames).before o = (r.markers seen frames).before o := by
  have hlines (r : RawCode) : ((r.markers seen frames).lines.at_ o).map (fun entry => Item.line entry.2) =
      (r.tables.lines.flatten.filter fun e => e.offset = o).map fun e => Item.line e.line := by
    rw [lines_at, ← r.map_snd_flatten_lines, List.filter_map, List.map_map, List.map_map]
    simp only [Function.comp_def, Int.natCast_inj]
  unfold Markers.before
  rw [labels_at, labels_at, frames_at, frames_at, hlines, hlines, h.lines]

theorem body_eq (seen : List (Int × Label)) (frames : List (Nat × Frame))
    (instructions : List (Instruction Label)) :
    r'.body (r'.markers seen frames) instructions = r.body (r.markers seen frames) instructions := by
  unfold body
  rw [h.instructions, h.length, h.before_eq]
  refine congrArg (· ++ _) (List.flatMap_congr fun p _ => ?_)
  rw [h.before_eq]

theorem of_assemble {registry : Label.Registry} {code code' : Code} {c c₁ c' c₁' : Cursor}
    (hcode : r.assemble registry c = .ok (code, c₁))
    (hcode' : r'.assemble registry c' = .ok (code', c₁')) :
    code' = { code with order := code'.order, lineTables := code'.lineTables } := by
  unfold assemble at hcode hcode'
  rw [h.label_eq] at hcode'
  generalize r.label.run registry = result at hcode hcode'
  obtain ⟨labelled, registry⟩ := result
  obtain ⟨_, c₂, -, hrest⟩ := Decoder.bind_eq_ok_iff.1 hcode
  obtain ⟨tables, c₃, -, hdone⟩ := Decoder.bind_eq_ok_iff.1 hrest
  obtain ⟨_, c₂', -, hrest'⟩ := Decoder.bind_eq_ok_iff.1 hcode'
  obtain ⟨tables', c₃', -, hdone'⟩ := Decoder.bind_eq_ok_iff.1 hrest'
  cases hdone
  cases hdone'
  dsimp only
  rw [(holds_weave r _ _).items, (holds_weave r' _ _).items, List.reverse_reverse, List.reverse_reverse,
    h.body_eq, h.maxima, h.attributes]

end SaysAgain

end Decoding.RawCode

end ClassTree
