/-
# ClassTree.Proofs.Encoding.Kept — instructions that keep their lengths

A method that has been read need not be written as it was: a constant may come to have an index that
takes another byte, and a jump may have to be far. If every instruction keeps its length, though,
each item of the body is written at the code offset that it belongs to. The tables around the
instructions then lead where they led before.
-/
import ClassTree.Proofs.Acceptance.Body
import ClassTree.Proofs.Decoding.Assembly

namespace ClassTree

open Decoding Encoding Encoder

/-! ## Lengths -/

/-- The lengths of the instructions of a body whose first item is at a position of a layout. -/
def Encoding.Layout.lengthsFrom (l : Layout) (position : Nat) : List Item → List Nat
  | [] => []
  | .instruction _ :: rest =>
    (l.offset (position + 1) - l.offset position) :: l.lengthsFrom (position + 1) rest
  | _ :: rest => l.lengthsFrom (position + 1) rest

namespace Decoding

/-- Where instructions begin, or end if there are none. -/
def startOf (stop : Nat) : List (Nat × Instruction Int) → Nat
  | [] => stop
  | p :: _ => p.1

/-- Instructions are read from the beginning of the code on. -/
theorem startOf_of_readOperations {t : Table} {length : Nat} {c c' : Cursor}
    {code : List (Nat × Instruction Int)} (h : readOperations t length c = .ok (code, c')) :
    startOf length code = 0 := by
  -- what has been read stays in front of what is read after it
  have honto (fuel : Nat) (acc code : List (Nat × Instruction Int)) (k k' : Cursor)
      (h : readOperationsOnto t c.position length fuel acc k = .ok (code, k')) :
      ∃ more, code = acc.reverse ++ more := by
    induction fuel generalizing acc k with
    | zero =>
      cases h
      exact ⟨[], (List.append_nil _).symm⟩
    | succ fuel ih =>
      obtain ⟨_, _, ⟨⟩, h⟩ := Decoder.bind_eq_ok_iff.1 h
      split at h
      · obtain ⟨i, k₁, -, h⟩ := Decoder.bind_eq_ok_iff.1 h
        obtain ⟨more, rfl⟩ := ih _ _ h
        exact ⟨_, by rw [List.reverse_cons, List.append_assoc]⟩
      · cases h
        exact ⟨[], (List.append_nil _).symm⟩
  obtain ⟨_, _, ⟨⟩, h⟩ := Decoder.bind_eq_ok_iff.1 h
  obtain ⟨found, c₁, hfound, h⟩ := Decoder.bind_eq_ok_iff.1 h
  obtain rfl : code = found := by
    obtain ⟨_, _, ⟨⟩, h⟩ := Decoder.bind_eq_ok_iff.1 h
    dsimp only at h
    split at h
    · obtain ⟨_, _, -, h⟩ := Decoder.bind_eq_ok_iff.1 h
      cases h
      rfl
    · obtain ⟨_, _, ⟨⟩, -⟩ := Decoder.bind_eq_ok_iff.1 h
  cases length with
  | zero =>
    cases hfound
    rfl
  | succ length =>
    obtain ⟨_, _, ⟨⟩, hfound⟩ := Decoder.bind_eq_ok_iff.1 hfound
    rw [Nat.sub_self, if_pos (Nat.succ_pos _)] at hfound
    obtain ⟨i, k₁, -, hfound⟩ := Decoder.bind_eq_ok_iff.1 hfound
    obtain ⟨more, rfl⟩ := honto _ _ _ _ _ hfound
    rfl

/-- The lengths of instructions that end at an offset: each reaches to the next one. -/
def lengthsTo (stop : Nat) : List (Nat × Instruction Int) → List Nat
  | [] => []
  | p :: rest => (startOf stop rest - p.1) :: lengthsTo stop rest

/-- The lengths of the instructions of a code attribute. -/
def RawCode.lengths (r : RawCode) : List Nat := lengthsTo r.length r.instructions

end Decoding

/-- The instructions of a method are written with the lengths that they had where they were read. -/
def Decoding.RawCode.KeepsLengths (r : RawCode) (P : Pool) (m : Method) : Prop :=
  ∃ l, Fixed P (Layout.of m.body) l ∧ l.lengthsFrom 0 m.body = r.lengths

/-! ## Layouts by lengths -/

namespace Encoding.Layout

/-- Items take these lengths in a layout, from a position on: no marker takes any room. -/
inductive Takes (l : Layout) : Nat → List Item → List Nat → Prop
  | nil (position : Nat) : Takes l position [] []
  | marker {position : Nat} {item : Item} {rest : List Item} {lengths : List Nat}
      (hmarker : item.isMarker = true) (hoffset : l.offset (position + 1) = l.offset position)
      (hrest : Takes l (position + 1) rest lengths) : Takes l position (item :: rest) lengths
  | instruction {position : Nat} {i : Instruction Label} {rest : List Item} {lengths : List Nat}
      {n : Nat} (hoffset : l.offset (position + 1) = l.offset position + n)
      (hrest : Takes l (position + 1) rest lengths) :
      Takes l position (.instruction i :: rest) (n :: lengths)

variable {P : Pool} {l : Layout} {body : List Item}

/-- Offsets do not fall from an item to the next one. -/
theorem offset_le_succ (hl : Fixed P (Layout.of body) l) {position : Nat} (h : position < body.length) :
    l.offset position ≤ l.offset (position + 1) := by
  obtain ⟨rooms, far, hrooms, hfar, rfl, -⟩ := fixed_of hl
  have hlength : rooms.length = body.length := (fixed_roomsOf_iff.1 hrooms).length_eq.symm
  rw [offset_succ (List.getElem?_eq_getElem (hlength ▸ h)) (List.getElem?_eq_getElem (hfar ▸ h))]
  exact Nat.le_add_right _ _

/-- The items of a body take the lengths of its instructions. -/
theorem takes_lengthsFrom (hl : Fixed P (Layout.of body) l) :
    l.Takes 0 body (l.lengthsFrom 0 body) := by
  -- a suffix of the body keeps its position in the whole of it
  have hfrom (before items : List Item) (hbody : body = before ++ items) :
      l.Takes before.length items (l.lengthsFrom before.length items) := by
    induction items generalizing before with
    | nil => exact .nil _
    | cons item rest ih =>
      have hlt : before.length < body.length := by
        rw [hbody, List.length_append, List.length_cons]
        omega
      have hitem : body[before.length]? = some item := by rw [hbody]; simp
      have hrest := ih (before ++ [item]) (by rw [hbody, List.append_cons])
      rw [List.length_append, List.length_singleton] at hrest
      cases item with
      | instruction i =>
        have hle := offset_le_succ hl hlt
        exact .instruction (by omega) hrest
      | _ => exact .marker rfl (offset_succ_of_marker hl hitem rfl) hrest
  exact hfrom [] body rfl

/-- Markers in a row stand at one offset. -/
theorem Takes.markers {position : Nat} {markers rest : List Item} {lengths : List Nat}
    (h : l.Takes position (markers ++ rest) lengths) (hmarkers : ∀ i ∈ markers, i.isMarker = true) :
    l.Takes (position + markers.length) rest lengths ∧
      l.offset (position + markers.length) = l.offset position ∧
      (markers.zipIdx position).map (fun p => (l.offset p.2, p.1)) =
        markers.map (Prod.mk (l.offset position)) := by
  induction markers generalizing position with
  | nil => exact ⟨h, rfl, rfl⟩
  | cons item markers ih =>
    cases h with
    | marker hmarker hoffset hrest =>
      obtain ⟨htakes, hsame, hplaced⟩ := ih hrest fun i hi => hmarkers i (List.mem_cons_of_mem _ hi)
      have hnext : position + (item :: markers).length = position + 1 + markers.length := by
        rw [List.length_cons]
        omega
      refine ⟨hnext ▸ htakes, by rw [hnext, hsame, hoffset], ?_⟩
      rw [List.zipIdx_cons, List.map_cons, hplaced, hoffset, List.map_cons]
    | instruction => cases hmarkers _ List.mem_cons_self

end Encoding.Layout

namespace Decoding.RawCode

/-! ## Items at their code offsets -/

/-- An instruction and what stands before it. -/
def block (m : Markers) (p : (Nat × Instruction Int) × Instruction Label) : List Item :=
  m.before p.1.1 ++ [.instruction p.2]

/-- The items of a body, each with the code offset that it belongs to. -/
def placed (r : RawCode) (m : Markers) (instructions : List (Instruction Label)) : List (Nat × Item) :=
  ((r.instructions.zip instructions).flatMap fun p => (block m p).map (Prod.mk p.1.1)) ++
    (m.before r.length).map (Prod.mk r.length)

variable {r : RawCode} {seen : List (Int × Label)} {l : LabelledCode} {code : Code} {P : Pool}
  {layout : Layout}

/-- What takes the lengths that it had in a code attribute stands where it stood. -/
theorem map_offset_eq_placed (r : RawCode) (m : Markers) {instructions : List (Instruction Label)}
    (hlength : r.instructions.length = instructions.length) (hr : InOrder r.length r.instructions)
    (hstart : startOf r.length r.instructions = 0) (hzero : layout.offset 0 = 0)
    (h : layout.Takes 0 (r.body m instructions) r.lengths) :
    (r.body m instructions).zipIdx.map (fun p => (layout.offset p.2, p.1)) =
      r.placed m instructions := by
  -- an instruction begins where the lengths before it end, so the layout is at its offset when the
  -- walk comes to it; the markers before it are at that offset too
  have hfrom (is : List (Nat × Instruction Int)) (is' : List (Instruction Label)) (position : Nat)
      (hlength : is.length = is'.length) (hr : InOrder r.length is)
      (hoffset : layout.offset position = startOf r.length is)
      (h : layout.Takes position ((is.zip is').flatMap (block m) ++ m.before r.length)
        (lengthsTo r.length is)) :
      (((is.zip is').flatMap (block m) ++ m.before r.length).zipIdx position).map
          (fun p => (layout.offset p.2, p.1)) =
        ((is.zip is').flatMap fun p => (block m p).map (Prod.mk p.1.1)) ++
          (m.before r.length).map (Prod.mk r.length) := by
    induction is generalizing is' position with
    | nil =>
      have htakes : layout.Takes position (m.before r.length ++ []) [] := by simpa [lengthsTo] using h
      have hend := (htakes.markers fun i hi => isMarker_of_mem_before hi).2.2
      rw [show layout.offset position = r.length from hoffset] at hend
      simpa using hend
    | cons p is ih =>
      obtain _ | ⟨i, is'⟩ := is'
      · cases hlength
      have hrest : InOrder r.length is :=
        ⟨(List.pairwise_cons.1 hr.increasing).2, fun q hq => hr.inside q (List.mem_cons_of_mem _ hq)⟩
      have hnext : p.1 ≤ startOf r.length is := by
        cases is with
        | nil => exact Nat.le_of_lt (hr.inside p List.mem_cons_self)
        | cons q is => exact Nat.le_of_lt ((List.pairwise_cons.1 hr.increasing).1 q.1 (by simp))
      rw [List.zip_cons_cons, List.flatMap_cons, block, List.append_assoc, List.append_assoc] at h ⊢
      obtain ⟨htakes, hsame, hplaced⟩ := h.markers fun i hi => isMarker_of_mem_before hi
      have hp : layout.offset position = p.1 := hoffset
      cases htakes with
      | marker hmarker => cases hmarker
      | instruction hroom htakes =>
        have hthere := ih is' _ (Nat.succ.inj hlength) hrest (by omega) htakes
        rw [List.zipIdx_append, List.map_append, hplaced, List.singleton_append, List.zipIdx_cons,
          List.map_cons, hthere, hsame, hp]
        simp [block]
  exact hfrom r.instructions instructions 0 hlength hr (hzero.trans hstart.symm) h

/-- The items that are placed are those of the body. -/
theorem Assembles.map_offset (h : r.Assembles seen l code) (hr : InOrder r.length r.instructions)
    (hstart : startOf r.length r.instructions = 0) (hl : Fixed P (Layout.of code.body) layout)
    (hkept : layout.lengthsFrom 0 code.body = r.lengths) :
    code.body.zipIdx.map (fun p => (layout.offset p.2, p.1)) =
      r.placed (r.markers seen l.frames) l.instructions := by
  have htakes := Layout.takes_lengthsFrom hl
  rw [hkept] at htakes
  have hzero : layout.offset 0 = 0 := by
    obtain ⟨rooms, far, -, -, rfl, -⟩ := Layout.fixed_of hl
    exact Layout.offset_zero
  rw [h.body] at htakes ⊢
  exact map_offset_eq_placed r _ h.labelled.instructions.length_eq hr hstart hzero htakes

/-- A label stands at the code offset that it was issued for. -/
theorem known_of_mem_placed {frames : List (Nat × Frame)} {instructions : List (Instruction Label)}
    {offset : Nat} {label : Label}
    (hmem : (offset, .label label) ∈ r.placed (r.markers seen frames) instructions) :
    Known seen offset label := by
  have hbefore {offset' : Nat} {i : Item} (hi : i ∈ (r.markers seen frames).before offset')
      (heq : (offset', i) = (offset, .label label)) : Known seen offset label := by
    cases heq
    unfold Markers.before at hi
    rw [labels_at] at hi
    simp only [List.mem_append, List.mem_map, List.mem_filter, decide_eq_true_eq] at hi
    rcases hi with (⟨_, ⟨p, ⟨hp, hoffset⟩, rfl⟩, hlabel⟩ | ⟨_, -, hline⟩) | ⟨_, -, hframe⟩
    · cases hlabel
      exact hoffset ▸ hp
    · cases hline
    · cases hframe
  rcases List.mem_append.1 hmem with hmem | hmem
  · obtain ⟨p, -, hmem⟩ := List.mem_flatMap.1 hmem
    obtain ⟨i, hi, heq⟩ := List.mem_map.1 hmem
    rcases List.mem_append.1 hi with hi | hi
    · exact hbefore hi heq
    · obtain rfl := List.mem_singleton.1 hi
      cases heq
  · obtain ⟨i, hi, heq⟩ := List.mem_map.1 hmem
    exact hbefore hi heq

/-- A label leads to the code offset that it was issued for. -/
theorem Assembles.eq_of_resolve (h : r.Assembles seen l code) (hr : InOrder r.length r.instructions)
    (hstart : startOf r.length r.instructions = 0) (hl : Fixed P (Layout.of code.body) layout)
    (hkept : layout.lengthsFrom 0 code.body = r.lengths) {label : Label} {offset target : Nat}
    (hknown : Known seen offset label) (hresolve : layout.resolve label = .ok target) :
    target = offset := by
  obtain ⟨position, hat, rfl⟩ := Layout.exists_of_resolve hl hresolve
  have hmem : (layout.offset position, .label label) ∈
      r.placed (r.markers seen l.frames) l.instructions := by
    rw [← h.map_offset hr hstart hl hkept]
    exact List.mem_map.2 ⟨(.label label, position), List.mk_mem_zipIdx_iff_getElem?.2 hat, rfl⟩
  have hsame := List.inj_on_of_nodup_map h.labels (known_of_mem_placed hmem) hknown rfl
  exact Int.ofNat.inj (congrArg Prod.fst hsame)

end Decoding.RawCode

end ClassTree
