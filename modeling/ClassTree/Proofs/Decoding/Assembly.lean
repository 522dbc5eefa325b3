/-
# ClassTree.Proofs.Decoding.Assembly — the code of a method, put together

Of a code attribute everything that refers to code offsets is labelled, what refers to no
instruction is refused, and the markers are woven into the instructions. Markers are collected by
code offset; here both are put without tables: before an instruction stand the labels, the lines and
the frame of its offset, and at the end those of the length of the code. An entry of the line tables
finds its marker by the place of that marker among all line markers.

What comes out is closed: each label that is referred to is defined once, at its offset. No entry of
a line table is left without its marker.
-/
import ClassTree.Decoding.Code
import ClassTree.Proofs.Decoding.Labels
import ClassTree.Proofs.Decoding.Sound

namespace ClassTree.Decoding

variable {α β : Type}

/-! ## Values by offset -/

theorem ByOffset.at_push (m : ByOffset α) (offset other : Int) (a : α) :
    (m.push offset a).at_ other = m.at_ other ++ (if offset = other then [a] else []) := by
  unfold ByOffset.at_ ByOffset.push
  rw [Std.HashMap.getD_insert]
  by_cases h : offset = other
  · subst h
    simp
  · simp [h]

/-- The values at an offset are those that were collected for it, in order. -/
theorem ByOffset.at_collect (offset : β → Int) (value : β → α) (l : List β) (other : Int) :
    ByOffset.at_ (l.foldl (fun m b => ByOffset.push m (offset b) (value b)) {}) other =
      (l.filter fun b => offset b = other).map value := by
  have hcollect (m : ByOffset α) :
      ByOffset.at_ (l.foldl (fun m b => ByOffset.push m (offset b) (value b)) m) other =
        m.at_ other ++ (l.filter fun b => offset b = other).map value := by
    induction l generalizing m with
    | nil => simp
    | cons b l ih =>
      rw [List.foldl_cons, ih, at_push]
      by_cases h : offset b = other <;> simp [h]
  rw [hcollect]
  simp [ByOffset.at_]

/-! ## Weaving -/

namespace Markers

/-- The markers of an offset. -/
def before (m : Markers) (offset : Int) : List Item :=
  (m.labels.at_ offset).map .label ++ (m.lines.at_ offset).map (fun entry => .line entry.2) ++
    (m.frames.at_ offset).map .frame

/-- The line entries of an offset. -/
def entries (m : Markers) (offset : Int) : List Nat := (m.lines.at_ offset).map Prod.fst

end Markers

/-- A weaving under way has come to these items, with markers for these line entries in this order.
-/
structure Weaving.Holds (w : Weaving) (items : List Item) (entries : List Nat) : Prop where
  items : w.items = items.reverse
  markers : w.markers = entries.length
  found : ∀ n ∈ entries, (w.markerOf[n]?).isSome
  numbered : entries.Nodup → ∀ n, w.markerOf[n]? = entries.idxOf? n

namespace Weaving.Holds

variable {w : Weaving} {items : List Item} {entries : List Nat} (h : w.Holds items entries)
include h

theorem append (more : List Item) :
    Weaving.Holds { w with items := more.reverseAux w.items } (items ++ more) entries :=
  ⟨by simp [h.items, List.reverseAux_eq], h.markers, h.found, h.numbered⟩

theorem line (entry : Nat × Nat) :
    (w.line entry).Holds (items ++ [.line entry.2]) (entries ++ [entry.1]) := by
  refine ⟨by simp [Weaving.line, h.items], by simp [Weaving.line, h.markers], ?_, ?_⟩
  · intro n hn
    show ((w.markerOf.insert entry.1 w.markers)[n]?).isSome
    rw [Std.HashMap.getElem?_insert]
    by_cases heq : entry.1 = n
    · simp [heq]
    · have hn : n ∈ entries := by simpa [Ne.symm heq] using hn
      simp [heq, h.found n hn]
  · intro hnodup n
    obtain ⟨hnodup, -, hnew⟩ := List.nodup_append.1 hnodup
    show (w.markerOf.insert entry.1 w.markers)[n]? = _
    rw [Std.HashMap.getElem?_insert, h.numbered hnodup, h.markers]
    have hnot : entry.1 ∉ entries := fun hmem => hnew _ hmem _ (by simp) rfl
    unfold List.idxOf?
    rw [List.findIdx?_append]
    by_cases heq : entry.1 = n
    · subst heq
      have hnone : entries.findIdx? (· == entry.1) = none := by
        rw [List.findIdx?_eq_none_iff]
        intro m hm
        rw [beq_eq_false_iff_ne]
        rintro rfl
        exact hnot hm
      simp [hnone]
    · simp [heq]

theorem lines (more : List (Nat × Nat)) :
    (more.foldl Weaving.line w).Holds (items ++ more.map fun entry => .line entry.2)
      (entries ++ more.map Prod.fst) := by
  induction more generalizing w items entries with
  | nil => simpa using h
  | cons entry more ih => simpa using ih (h.line entry)

/-- The markers of an offset and what stands there. -/
theorem offset (m : Markers) (place : Int) (instruction : Option (Instruction Label)) :
    (w.offset m place instruction).Holds
      (items ++ (m.before place ++ instruction.toList.map .instruction))
      (entries ++ m.entries place) := by
  have hlabels := h.append ((m.labels.at_ place).map Item.label)
  have hlines := hlabels.lines (m.lines.at_ place)
  have hframes := hlines.append ((m.frames.at_ place).map Item.frame)
  unfold Weaving.offset Markers.before Markers.entries
  cases instruction with
  | none => simpa using hframes
  | some i =>
    have hlast := hframes.append [.instruction i]
    simpa using hlast

theorem fold (m : Markers) (code : List ((Nat × Instruction Int) × Instruction Label)) :
    (code.foldl (fun w p => w.offset m p.1.1 (some p.2)) w).Holds
      (items ++ code.flatMap fun p => m.before p.1.1 ++ [.instruction p.2])
      (entries ++ code.flatMap fun p => m.entries p.1.1) := by
  induction code generalizing w items entries with
  | nil => simpa using h
  | cons p code ih => simpa using ih (h.offset m p.1.1 (some p.2))

end Weaving.Holds

namespace RawCode

/-- The body of a code attribute. -/
def body (r : RawCode) (m : Markers) (instructions : List (Instruction Label)) : List Item :=
  ((r.instructions.zip instructions).flatMap fun p => m.before p.1.1 ++ [.instruction p.2]) ++
    m.before r.length

/-- The entries of the line tables in the order of their markers. -/
def entries (r : RawCode) (m : Markers) (instructions : List (Instruction Label)) : List Nat :=
  ((r.instructions.zip instructions).flatMap fun p => m.entries p.1.1) ++ m.entries r.length

/-- Weaving gives the body, and numbers the line markers through. -/
theorem holds_weave (r : RawCode) (m : Markers) (instructions : List (Instruction Label)) :
    (r.weave m instructions).Holds (r.body m instructions) (r.entries m instructions) := by
  have hempty : Weaving.Holds {} [] [] := ⟨rfl, rfl, by simp, by simp⟩
  have hend := (hempty.fold m (r.instructions.zip instructions)).offset m r.length none
  simpa [weave, body, entries] using hend

/-- Only markers stand before an instruction. -/
theorem isMarker_of_mem_before {m : Markers} {offset : Int} {i : Item} (h : i ∈ m.before offset) :
    i.isMarker = true := by
  unfold Markers.before at h
  simp only [List.mem_append, List.mem_map] at h
  rcases h with (⟨_, -, rfl⟩ | ⟨_, -, rfl⟩) | ⟨_, -, rfl⟩ <;> rfl

/-- The instructions of a body are those that the markers have been woven into. -/
theorem filterMap_instruction_body (r : RawCode) (m : Markers) {instructions : List (Instruction Label)}
    (hlength : r.instructions.length = instructions.length) :
    (r.body m instructions).filterMap Item.instruction? = instructions := by
  have hnone (offset : Int) : (m.before offset).filterMap Item.instruction? = [] := by
    refine List.filterMap_eq_nil_iff.2 fun item hitem => ?_
    have hmarker := isMarker_of_mem_before hitem
    cases item with
    | instruction i => cases hmarker
    | _ => rfl
  have hblock (p : (Nat × Instruction Int) × Instruction Label) :
      (m.before p.1.1 ++ [Item.instruction p.2]).filterMap Item.instruction? = [p.2] := by
    rw [List.filterMap_append, hnone]
    rfl
  unfold body
  rw [List.filterMap_append, hnone, List.append_nil, List.filterMap_flatMap]
  simp only [hblock]
  rw [← List.map_eq_flatMap, List.map_snd_zip (Nat.le_of_eq hlength.symm)]

/-! ## Line tables -/

/-- The entries of tables are numbered through from a number on, each table behind those before it.
-/
theorem exists_foldl_numbered (tables : List (List RawLine)) (acc : List (List (Nat × RawLine)))
    (n : Nat) :
    ∃ more, (tables.foldl (fun (next, acc) table =>
      (next + table.length, (table.zipIdx next).map Prod.swap :: acc)) (n, acc)).2.reverse =
        acc.reverse ++ more ∧
      more.flatten.map Prod.fst = List.range' n tables.flatten.length ∧
      more.map (List.map Prod.snd) = tables := by
  induction tables generalizing acc n with
  | nil => exact ⟨[], by simp, by simp, rfl⟩
  | cons table tables ih =>
    obtain ⟨more, hmore, hnumbers, hlines⟩ :=
      ih ((table.zipIdx n).map Prod.swap :: acc) (n + table.length)
    refine ⟨(table.zipIdx n).map Prod.swap :: more, ?_, ?_, ?_⟩
    · rw [List.foldl_cons, hmore]
      simp
    · have hfirst : ((table.zipIdx n).map Prod.swap).map Prod.fst = List.range' n table.length := by
        rw [List.map_map]
        exact List.zipIdx_map_snd n table
      rw [List.flatten_cons, List.map_append, hfirst, hnumbers, List.flatten_cons, List.length_append,
        ← List.range'_append_1]
    · have hfirst : ((table.zipIdx n).map Prod.swap).map Prod.snd = table := by
        rw [List.map_map]
        exact List.zipIdx_map_fst n table
      rw [List.map_cons, hfirst, hlines]

/-- The entries of all line tables are numbered through, so each has a number of its own. -/
theorem map_fst_flatten_numberLines (tables : List (List RawLine)) :
    (numberLines tables).flatten.map Prod.fst = List.range tables.flatten.length ∧
      (numberLines tables).map (List.map Prod.snd) = tables := by
  obtain ⟨more, hmore, hnumbers, hlines⟩ := exists_foldl_numbered tables [] 0
  have heq : numberLines tables = more := by
    unfold numberLines
    rw [hmore]
    rfl
  rw [heq, hnumbers, List.range_eq_range']
  exact ⟨rfl, hlines⟩

end RawCode

namespace RawCode

variable {r : RawCode} {seen : List (Int × Label)}

/-! ## Checks -/

/-- There is an instruction at the offset. -/
def HasOffset (r : RawCode) (offset : Int) : Prop := ∃ p ∈ r.instructions, (p.1 : Int) = offset

/-- The offsets of the instructions are those of the set. -/
theorem contains_offsets (r : RawCode) (offset : Int) :
    r.offsets.contains offset = true ↔ r.HasOffset offset := by
  have hfold (s : Std.HashSet Int) (code : List (Nat × Instruction Int)) :
      (code.foldl (fun s p => s.insert (p.1 : Int)) s).contains offset = true ↔
        s.contains offset = true ∨ ∃ p ∈ code, (p.1 : Int) = offset := by
    induction code generalizing s with
    | nil => simp
    | cons p code ih =>
      rw [List.foldl_cons, ih, Std.HashSet.contains_insert, Bool.or_eq_true, beq_iff_eq]
      simp only [List.mem_cons, exists_eq_or_imp]
      tauto
  unfold offsets
  rw [hfold]
  simp [HasOffset]

/-- Everything is at an instruction; only a label may be at the end of the code. -/
structure Checked (r : RawCode) (seen : List (Int × Label)) : Prop where
  frames : ∀ f ∈ r.tables.frames, r.HasOffset f.offset
  labels : ∀ p ∈ seen, r.HasOffset p.1 ∨ p.1 = r.length
  lines : ∀ table ∈ r.lines, ∀ p ∈ table, r.HasOffset p.2.offset

theorem finds_check (r : RawCode) (seen : List (Int × Label)) :
    Finds (r.check seen) fun _ => r.Checked seen := by
  refine (Finds.forM fun f _ => Finds.check _ _).bind fun _ hframes => ?_
  refine (Finds.forM fun p _ => Finds.check _ _).bind fun _ hlabels => ?_
  refine (Finds.forM fun table _ => Finds.forM fun p _ => Finds.check _ _).imp fun _ hlines => ?_
  refine ⟨fun f hf => (r.contains_offsets _).1 (hframes f hf), fun p hp => ?_,
    fun table htable p hp => (r.contains_offsets _).1 (hlines table htable p hp)⟩
  have hmem := hlabels p hp
  rw [Std.HashSet.contains_insert, Bool.or_eq_true, beq_iff_eq] at hmem
  rcases hmem with heq | hmem
  · exact .inr heq.symm
  · exact .inl ((r.contains_offsets _).1 hmem)

theorem parses_check (h : r.Checked seen) : Parses True (r.check seen) [] fun _ => True := by
  refine (Parses.forM_nil fun f hf => ?_).bind_nil fun _ _ => ?_
  · exact .check ((r.contains_offsets _).2 (h.frames f hf)) _ _
  refine (Parses.forM_nil fun p hp => ?_).bind_nil fun _ _ => ?_
  · refine .check ?_ _ _
    rw [Std.HashSet.contains_insert, Bool.or_eq_true, beq_iff_eq]
    rcases h.labels p hp with hinside | hend
    · exact .inr ((r.contains_offsets _).2 hinside)
    · exact .inl hend.symm
  · refine Parses.forM_nil fun table htable => Parses.forM_nil fun p hp => ?_
    exact .check ((r.contains_offsets _).2 (h.lines table htable p hp)) _ _

/-! ## Markers -/

theorem labels_at (r : RawCode) (seen : List (Int × Label)) (frames : List (Nat × Frame))
    (offset : Int) : (r.markers seen frames).labels.at_ offset =
      (seen.filter fun p => p.1 = offset).map Prod.snd := ByOffset.at_collect _ _ seen offset

theorem lines_at (r : RawCode) (seen : List (Int × Label)) (frames : List (Nat × Frame))
    (offset : Int) : (r.markers seen frames).lines.at_ offset =
      (r.lines.flatten.filter fun p => (p.2.offset : Int) = offset).map fun p => (p.1, p.2.line) :=
  ByOffset.at_collect (fun p : Nat × RawLine => (p.2.offset : Int)) (fun p => (p.1, p.2.line)) _ offset

theorem frames_at (r : RawCode) (seen : List (Int × Label)) (frames : List (Nat × Frame))
    (offset : Int) : (r.markers seen frames).frames.at_ offset =
      (frames.filter fun p => (p.1 : Int) = offset).map Prod.snd :=
  ByOffset.at_collect (fun p : Nat × Frame => (p.1 : Int)) Prod.snd frames offset

/-! ## The result -/

/-- The place of a line entry among the line markers, whose entries in order are these. -/
def IsMarker (entries : List Nat) (p : Nat × RawLine) (n : Int) : Prop :=
  ∃ i : Nat, entries.idxOf? p.1 = some i ∧ n = i

/-- What is put together of a code attribute, the labels of its offsets and what has been labelled.
-/
structure Assembles (r : RawCode) (seen : List (Int × Label)) (l : LabelledCode) (code : Code) : Prop
    where
  labelled : r.Matches (Known seen) l
  checked : r.Checked seen
  offsets : (seen.map Prod.fst).Nodup
  labels : (seen.map Prod.snd).Nodup
  maxima : code.maxima = r.maxima
  body : code.body = r.body (r.markers seen l.frames) l.instructions
  handlers : code.handlers = l.handlers
  localVariables : code.localVariables = l.localVariables
  attributes : code.attributes = r.tables.attributes
  order : code.order = r.tables.order
  lineTables : (r.entries (r.markers seen l.frames) l.instructions).Nodup →
    List.Forall₂ (List.Forall₂ (IsMarker (r.entries (r.markers seen l.frames) l.instructions)))
      r.lines code.lineTables

/-- An entry of a line table at an instruction has a marker. -/
theorem mem_entries {frames : List (Nat × Frame)} {instructions : List (Instruction Label)}
    (hlength : r.instructions.length = instructions.length) {table : List (Nat × RawLine)}
    (htable : table ∈ r.lines) {p : Nat × RawLine} (hp : p ∈ table)
    (hoffset : r.HasOffset p.2.offset) :
    p.1 ∈ r.entries (r.markers seen frames) instructions := by
  obtain ⟨q, hq, heq⟩ := hoffset
  obtain ⟨pair, hpair, rfl⟩ : ∃ pair ∈ r.instructions.zip instructions, pair.1 = q := by
    have hfirst : (r.instructions.zip instructions).map Prod.fst = r.instructions :=
      List.map_fst_zip (Nat.le_of_eq hlength)
    rw [← hfirst] at hq
    obtain ⟨pair, hpair, rfl⟩ := List.mem_map.1 hq
    exact ⟨pair, hpair, rfl⟩
  refine List.mem_append_left _ (List.mem_flatMap.2 ⟨pair, hpair, ?_⟩)
  unfold Markers.entries
  rw [lines_at, heq]
  refine List.mem_map.2 ⟨(p.1, p.2.line), List.mem_map.2 ⟨p, ?_, rfl⟩, rfl⟩
  exact List.mem_filter.2 ⟨List.mem_flatten.2 ⟨table, htable, hp⟩, by simp⟩

/-- The markers of the entries of the line tables are found. -/
theorem parses_lineTables (frames : List (Nat × Frame)) {instructions : List (Instruction Label)}
    (hlength : r.instructions.length = instructions.length) (hr : r.Checked seen) :
    Parses True (r.lineTables (r.weave (r.markers seen frames) instructions)) [] fun tables =>
      (r.entries (r.markers seen frames) instructions).Nodup →
        List.Forall₂ (List.Forall₂ (IsMarker (r.entries (r.markers seen frames) instructions)))
          r.lines tables := by
  have hholds := r.holds_weave (r.markers seen frames) instructions
  generalize hentries : r.entries (r.markers seen frames) instructions = entries at hholds ⊢
  by_cases hnodup : entries.Nodup
  · refine Parses.imp (Parses.mapM_nil fun table htable => Parses.mapM_nil fun p hp => ?_) fun _ h _ => h
    have hmem : p.1 ∈ entries := hentries ▸ mem_entries hlength htable hp (hr.lines table htable p hp)
    obtain ⟨i, hi⟩ := Option.isSome_iff_exists.1 (hholds.found p.1 hmem)
    rw [hi]
    exact .pure ⟨i, (hholds.numbered hnodup p.1).symm.trans hi, rfl⟩
  · refine Parses.imp (Parses.mapM_nil fun table htable =>
      Parses.mapM_nil (S := fun _ _ => True) fun p hp => ?_) fun _ _ h => absurd h hnodup
    have hmem : p.1 ∈ entries := hentries ▸ mem_entries hlength htable hp (hr.lines table htable p hp)
    obtain ⟨i, hi⟩ := Option.isSome_iff_exists.1 (hholds.found p.1 hmem)
    rw [hi]
    exact .pure trivial

/-- A code attribute is put together, or refused. -/
theorem finds_assemble (r : RawCode) (place : Text) :
    Finds (r.assemble { place }) fun code => ∃ seen l, r.Assembles seen l code := by
  obtain ⟨hnumbered, -, hmatches⟩ := issues_label r { place } (Label.Registry.isNumbered_new place)
  have hlabelled := hmatches _ (List.prefix_refl _)
  unfold assemble StateT.run
  generalize r.label { place } = result at hnumbered hlabelled ⊢
  obtain ⟨l, registry⟩ := result
  refine (finds_check r registry.seen.toList).bind fun _ hchecked => ?_
  have hlength : r.instructions.length = l.instructions.length := hlabelled.instructions.length_eq
  refine (Finds.of_parses (parses_lineTables l.frames hlength hchecked)).bind fun tables htables => ?_
  refine .pure ⟨registry.seen.toList, l, hlabelled, hchecked, hnumbered.nodup, hnumbered.nodup_labels,
    rfl, ?_, rfl, rfl, rfl, rfl, htables⟩
  have hitems := (r.holds_weave (r.markers registry.seen.toList l.frames) l.instructions).items
  dsimp only
  rw [hitems, List.reverse_reverse]

/-- Frames and lines are at instructions, and so is everything else that has a code offset unless it
is at the end of the code. -/
structure IsPlaced (r : RawCode) : Prop where
  refersTo : r.RefersTo fun offset => r.HasOffset offset ∨ offset = r.length
  frames : ∀ f ∈ r.tables.frames, r.HasOffset f.offset
  lines : ∀ table ∈ r.tables.lines, ∀ l ∈ table, r.HasOffset l.offset

theorem IsPlaced.checked (h : r.IsPlaced)
    (hseen : ∀ p ∈ seen, r.HasOffset p.1 ∨ p.1 = r.length) : r.Checked seen where
  frames := h.frames
  labels := hseen
  lines := by
    intro table htable p hp
    have hmem : table.map Prod.snd ∈ r.tables.lines := by
      rw [← (map_fst_flatten_numberLines r.tables.lines).2]
      exact List.mem_map_of_mem htable
    exact h.lines _ hmem _ (List.mem_map_of_mem hp)

/-- A code attribute is put together if everything is placed. -/
theorem parses_assemble (h : r.IsPlaced) (place : Text) :
    Parses True (r.assemble { place }) [] fun _ => True := by
  obtain ⟨-, -, hmatches⟩ := issues_label r { place } (Label.Registry.isNumbered_new place)
  have hlabelled := hmatches _ (List.prefix_refl _)
  have hseen := staysIn_label h.refersTo { place } (by simp)
  unfold assemble StateT.run
  generalize r.label { place } = result at hlabelled hseen ⊢
  obtain ⟨l, registry⟩ := result
  have hchecked : r.Checked registry.seen.toList := h.checked hseen
  refine (parses_check hchecked).bind_nil fun _ _ => ?_
  exact (parses_lineTables l.frames hlabelled.instructions.length_eq hchecked).map _ fun _ _ => trivial

end RawCode

end ClassTree.Decoding
