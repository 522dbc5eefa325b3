/-
# ClassTree.Proofs.Decoding.Markers — the markers of a body

A body has no more frames than the stack map that it is read from, and one line marker for each
entry of its line tables. The tables name each of these markers once, so a writer keeps the tables
as they are. The label of a lower code offset stands before that of a higher one.
-/
import ClassTree.Proofs.Class.Drawn
import ClassTree.Proofs.Decoding.Placement
import Mathlib.Data.List.Sort

namespace ClassTree

open Encoding

/-! ## Frames and lines of a body -/

/-- The line of a line marker. -/
def Item.line? : Item → Option Int
  | .line n => some n
  | _ => none

/-- The frames of a body are found with their positions. -/
theorem length_ownFrames (body : List Item) :
    (ownFrames body).length = (body.filterMap Item.frame?).length := by
  have hframes : (ownFrames body).map Prod.snd = (body.zipIdx.map Prod.fst).filterMap Item.frame? := by
    unfold ownFrames
    rw [List.map_filterMap, List.filterMap_map]
    refine List.filterMap_congr fun p _ => ?_
    simp [Function.comp_def]
  rw [List.zipIdx_map_fst] at hframes
  rw [← hframes, List.length_map]

/-- The line markers of a body are found with their offsets. -/
theorem size_linesOf (l : Layout) (body : List Item) :
    (linesOf l body).size = (body.filterMap Item.line?).length := by
  have hlines : (linesOf l body).toList.map Prod.snd =
      (body.zipIdx.map Prod.fst).filterMap Item.line? := by
    unfold linesOf
    rw [List.map_filterMap, List.filterMap_map]
    refine List.filterMap_congr fun p _ => ?_
    obtain ⟨item, position⟩ := p
    cases item <;> rfl
  rw [List.zipIdx_map_fst] at hlines
  rw [← hlines, List.length_map, Array.length_toList]

/-! ## Hints -/

/-- A hint names each of so many markers once. -/
def Encoding.NamesAll (count : Nat) (hint : List (List Int)) : Prop :=
  hint.flatten.Perm ((List.range count).map Int.ofNat)

/-- The writer finds that a hint names each marker once by sorting it. -/
theorem Encoding.mergeSort_flatten_eq_iff (count : Nat) (hint : List (List Int)) :
    hint.flatten.mergeSort = (List.range count).map Int.ofNat ↔ NamesAll count hint := by
  constructor
  · intro h
    unfold NamesAll
    rw [← h]
    exact (List.mergeSort_perm _ _).symm
  · intro h
    refine List.Perm.eq_of_pairwise' (List.pairwise_mergeSort' (· ≤ ·) _) ?_
      ((List.mergeSort_perm _ _).trans h)
    exact List.pairwise_map.2 (List.pairwise_lt_range.imp fun hlt => Int.ofNat_le.2 (Nat.le_of_lt hlt))

namespace Decoding.RawCode

/-- Each element has one key, so no more are found under different keys than there are. -/
theorem length_flatMap_filter_le {α β : Type} [DecidableEq β] (key : α → β) {keys : List β}
    (h : keys.Nodup) (as : List α) :
    (keys.flatMap fun k => as.filter fun a => key a = k).length ≤ as.length := by
  induction keys generalizing as with
  | nil => simp
  | cons k keys ih =>
    obtain ⟨hnot, h⟩ := List.nodup_cons.1 h
    have hrest : (keys.flatMap fun k' => as.filter fun a => key a = k') =
        keys.flatMap fun k' => (as.filter fun a => ¬ key a = k).filter fun a => key a = k' := by
      refine List.flatMap_congr fun k' hk' => ?_
      rw [List.filter_filter]
      refine List.filter_congr fun a _ => ?_
      have hne : k' ≠ k := fun heq => hnot (heq ▸ hk')
      grind
    rw [List.flatMap_cons, List.length_append, hrest]
    have hsplit := List.length_eq_length_filter_add (l := as) fun a => decide (key a = k)
    have hle := ih h (as.filter fun a => ¬ key a = k)
    simp only [decide_not] at hle ⊢
    omega

variable {r : RawCode} {seen : List (Int × Label)} {l : LabelledCode} {code : Code}

/-- A body has no more frames than the stack map. -/
theorem Assembles.length_ownFrames_le (h : r.Assembles seen l code)
    (hr : InOrder r.length r.instructions) :
    (ownFrames code.body).length ≤ r.tables.frames.length := by
  have hframes : code.body.filterMap Item.frame? = (r.places l.instructions).flatMap fun o =>
      (l.frames.filter fun p => (p.1 : Int) = o).map Prod.snd := by
    rw [h.body, filterMap_body fun _ => rfl]
    refine List.flatMap_congr fun o _ => ?_
    rw [filterMap_before, frames_at]
    simp [Item.frame?]
  rw [length_ownFrames, hframes, h.labelled.frames.length_eq, ← List.map_flatMap, List.length_map]
  exact length_flatMap_filter_le _ (nodup_places h.labelled.instructions.length_eq hr) _

/-! ## Line tables -/

/-- The entries of the line tables are found place by place. -/
theorem entries_eq (r : RawCode) (m : Markers) (instructions : List (Instruction Label)) :
    r.entries m instructions = (r.places instructions).flatMap m.entries := by
  unfold entries places
  rw [List.flatMap_append, List.flatMap_map]
  simp

theorem length_entries (r : RawCode) (m : Markers) (instructions : List (Instruction Label)) :
    (r.entries m instructions).length = ((r.body m instructions).filterMap Item.line?).length := by
  rw [entries_eq, filterMap_body fun _ => rfl, List.length_flatMap, List.length_flatMap]
  congr 2
  funext o
  rw [filterMap_before]
  simp [Item.line?, Markers.entries]

theorem mem_entries_iff (r : RawCode) (frames : List (Nat × Frame)) (o : Int) (n : Nat) :
    n ∈ (r.markers seen frames).entries o ↔ ∃ p ∈ r.lines.flatten, p.1 = n ∧ (p.2.offset : Int) = o := by
  unfold Markers.entries
  rw [lines_at, List.map_map]
  simp only [List.mem_map, List.mem_filter, decide_eq_true_eq, Function.comp_apply]
  grind

theorem nodup_numbers (r : RawCode) : (r.lines.flatten.map Prod.fst).Nodup := by
  unfold lines
  rw [(map_fst_flatten_numberLines r.tables.lines).1]
  exact List.nodup_range

theorem Assembles.entries_perm (h : r.Assembles seen l code) (hr : InOrder r.length r.instructions) :
    (r.entries (r.markers seen l.frames) l.instructions).Perm
      (List.range r.tables.lines.flatten.length) := by
  have hnumbers := (map_fst_flatten_numberLines r.tables.lines).1
  have hnodup : (r.entries (r.markers seen l.frames) l.instructions).Nodup := by
    rw [entries_eq, List.nodup_flatMap]
    refine ⟨fun o _ => ?_, (nodup_places h.labelled.instructions.length_eq hr).imp fun hne n ha hb => ?_⟩
    · unfold Markers.entries
      rw [lines_at, List.map_map]
      exact r.nodup_numbers.sublist (List.Sublist.map _ List.filter_sublist)
    · obtain ⟨p, hp, rfl, hpo⟩ := (mem_entries_iff r l.frames _ _).1 ha
      obtain ⟨q, hq, heq, hqo⟩ := (mem_entries_iff r l.frames _ _).1 hb
      have hsame := List.inj_on_of_nodup_map r.nodup_numbers hp hq heq.symm
      exact hne (hpo.symm.trans ((congrArg (fun p : Nat × RawLine =>
        (p.2.offset : Int)) hsame).trans hqo))
  rw [List.perm_ext_iff_of_nodup hnodup List.nodup_range, ← hnumbers]
  intro n
  constructor
  · intro hn
    rw [entries_eq] at hn
    obtain ⟨o, -, hn⟩ := List.mem_flatMap.1 hn
    obtain ⟨p, hp, rfl, -⟩ := (mem_entries_iff r l.frames _ _).1 hn
    exact List.mem_map_of_mem hp
  · intro hn
    obtain ⟨p, hp, rfl⟩ := List.mem_map.1 hn
    obtain ⟨table, htable, hp⟩ := List.mem_flatten.1 hp
    exact mem_entries h.labelled.instructions.length_eq htable hp (h.checked.lines table htable p hp)

/-- Numbers that are different stand at the places that they are found at. -/
theorem map_idxOf_self {ns : List Nat} (h : ns.Nodup) : ns.map ns.idxOf = List.range ns.length := by
  refine List.ext_getElem (by simp) fun i hi _ => ?_
  rw [List.getElem_map, List.getElem_range, h.idxOf_getElem]

theorem Assembles.lineTables_perm (h : r.Assembles seen l code) (hr : InOrder r.length r.instructions) :
    code.lineTables.flatten.Perm ((List.range r.tables.lines.flatten.length).map Int.ofNat) := by
  have hperm := h.entries_perm hr
  have htables := h.lineTables (hperm.nodup_iff.2 List.nodup_range)
  generalize r.entries (r.markers seen l.frames) l.instructions = entries at hperm htables
  have hmarkers : code.lineTables.flatten =
      (r.lines.flatten.map Prod.fst).map fun n => Int.ofNat (entries.idxOf n) := by
    have hflat := List.rel_flatten htables
    rw [List.map_map, ← List.forall₂_eq_eq_eq, List.forall₂_map_right_iff]
    refine hflat.flip.imp fun marker p hmarker => ?_
    obtain ⟨i, hi, rfl⟩ := hmarker
    exact congrArg Int.ofNat (List.findIdx?_eq_some_iff_findIdx_eq.1 hi).2.symm
  have hnodup := hperm.nodup_iff.2 List.nodup_range
  rw [hmarkers, show r.lines.flatten.map Prod.fst = List.range r.tables.lines.flatten.length from
    (map_fst_flatten_numberLines r.tables.lines).1]
  have hindices := (hperm.symm.map entries.idxOf).trans (List.Perm.of_eq (map_idxOf_self hnodup))
  rw [hperm.length_eq, List.length_range] at hindices
  have := hindices.map Int.ofNat
  rwa [List.map_map] at this

/-- The hint of a method that has been read names each line marker once. -/
theorem Assembles.namesAll (h : r.Assembles seen l code) (hr : InOrder r.length r.instructions)
    (layout : Layout) : NamesAll (linesOf layout code.body).size code.lineTables := by
  have hcount : (linesOf layout code.body).size = r.tables.lines.flatten.length := by
    rw [size_linesOf, h.body, ← length_entries, (h.entries_perm hr).length_eq, List.length_range]
  rw [hcount]
  exact h.lineTables_perm hr

theorem Assembles.lineTables_eq (h : r.Assembles seen l code) (hr : InOrder r.length r.instructions)
    (layout : Layout) : Encoding.lineTables code.lineTables (linesOf layout code.body).size =
      code.lineTables.map fun table => table.map Int.toNat := by
  unfold Encoding.lineTables
  rw [if_pos ((mergeSort_flatten_eq_iff _ _).2 (h.namesAll hr layout))]

/-! ## Labels -/

/-- A label in a body belongs to an instruction of it or to the end of the code. -/
theorem Stands.exists_known {is : List (Nat × Instruction Int)} {body : List Item}
    (h : r.Stands seen is body) {label : Label} (hlabel : .label label ∈ body) :
    ∃ o, Known seen o label ∧ ((∃ p ∈ is, (p.1 : Int) = o) ∨ o = r.length) := by
  induction h with
  | done h => exact ⟨_, h _ hlabel, .inr rfl⟩
  | @next p rest markers body i hmarkers hi hrest ih =>
    rcases List.mem_append.1 hlabel with hlabel | hlabel
    · exact ⟨p.1, hmarkers _ hlabel, .inl ⟨p, by simp, rfl⟩⟩
    · obtain ⟨o, hknown, hplace⟩ := ih (by simpa using hlabel)
      refine ⟨o, hknown, hplace.imp_left ?_⟩
      rintro ⟨q, hq, rfl⟩
      exact ⟨q, by simp [hq], rfl⟩

/-- The label of a lower offset stands before that of a higher one. -/
theorem Stands.sublist {is : List (Nat × Instruction Int)} {body : List Item} (h : r.Stands seen is body)
    (hlabels : (seen.map Prod.snd).Nodup) (horder : InOrder r.length is) {o o' : Int} {a b : Label}
    (ha : Known seen o a) (hb : Known seen o' b) (hlt : o < o') (hmem : .label a ∈ body)
    (hmem' : .label b ∈ body) : List.Sublist [.label a, .label b] body := by
  have hunique {o o' : Int} {label : Label} (h : Known seen o label) (h' : Known seen o' label) :
      o = o' :=
    congrArg Prod.fst (List.inj_on_of_nodup_map hlabels h h' rfl)
  induction h with
  | done h =>
    have hao := hunique ha (h _ hmem)
    have hbo := hunique hb (h _ hmem')
    omega
  | @next p rest markers body i hmarkers hi hrest ih =>
    have hrestOrder : InOrder r.length rest :=
      ⟨(List.pairwise_cons.1 horder.increasing).2, fun q hq => horder.inside q (by simp [hq])⟩
    have hafter {label : Label} {o : Int} (h : Known seen o label) (hin : .label label ∈ body) :
        (p.1 : Int) < o := by
      obtain ⟨o', hknown, hplace⟩ := hrest.exists_known hin
      rw [hunique h hknown]
      rcases hplace with ⟨q, hq, rfl⟩ | rfl
      · have := (List.pairwise_cons.1 horder.increasing).1 q.1 (List.mem_map_of_mem hq)
        omega
      · have := horder.inside p (by simp)
        omega
    have hsplit {label : Label} (h : .label label ∈ markers ++ .instruction i :: body) :
        .label label ∈ markers ∨ .label label ∈ body := by simpa using h
    rcases hsplit hmem with hleft | hleft <;> rcases hsplit hmem' with hright | hright
    · have hao := hunique ha (hmarkers _ hleft)
      have hbo := hunique hb (hmarkers _ hright)
      omega
    · exact (List.singleton_sublist.2 hleft).append (.cons _ (List.singleton_sublist.2 hright))
    · have hbo := hunique hb (hmarkers _ hright)
      have := hafter ha hleft
      omega
    · exact (((ih hrestOrder hleft hright).cons _).trans (List.sublist_append_right _ _))

/-- The range of a local variable does not stop before it starts. -/
theorem Assembles.isOrdered (h : r.Assembles seen l code) (hr : InOrder r.length r.instructions)
    {v : LocalVariable} (hv : v ∈ code.localVariables) : v.IsOrdered code.body := by
  rw [h.localVariables] at hv
  obtain ⟨w, -, hmatches⟩ := Result.exists_of_mem_right h.labelled.locals hv
  have hmem {o : Int} {label : Label} (hknown : Known seen o label) : .label label ∈ code.body := by
    obtain ⟨item, hitem, heq⟩ := List.mem_filterMap.1 (h.mem_definitions hknown)
    cases item with
    | label _ =>
      cases heq
      exact hitem
    | _ => cases heq
  by_cases hlength : w.variable_.length = 0
  · have hstop := hmatches.stop
    rw [hlength, Nat.add_zero] at hstop
    have hsame : v.start = v.stop :=
      congrArg Prod.snd (List.inj_on_of_nodup_map h.offsets hmatches.start hstop rfl)
    obtain ⟨start, hstart⟩ := List.mem_iff_getElem?.1 (hmem hmatches.start)
    exact ⟨start, start, Nat.le_refl _, hstart, hsame ▸ hstart⟩
  · have hsublist := h.stands.sublist h.labels hr hmatches.start hmatches.stop (by omega)
      (hmem hmatches.start) (hmem hmatches.stop)
    obtain ⟨before, after, heq, hstart, hstop⟩ := List.cons_sublist_iff.1 hsublist
    obtain ⟨start, hstart⟩ := List.mem_iff_getElem?.1 hstart
    obtain ⟨stop, hstop⟩ := List.mem_iff_getElem?.1 (List.singleton_sublist.1 hstop)
    have hlt := (List.getElem?_eq_some_iff.1 hstart).1
    refine ⟨start, before.length + stop, by omega, ?_, ?_⟩
    · rw [heq, List.getElem?_append_left hlt, hstart]
    · rw [heq, List.getElem?_append_right (by omega), Nat.add_sub_cancel_left, hstop]

end Decoding.RawCode

end ClassTree
