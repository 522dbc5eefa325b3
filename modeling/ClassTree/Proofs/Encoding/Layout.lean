/-
# ClassTree.Proofs.Encoding.Layout — where the items of a body come to stand

An item stands where the room of the item before it ends. When a layout is done, every jump that is
not far reaches its target; and each instruction takes exactly the room that it has been given, so
the offsets of a layout are the places of the bytes that are written.
-/
import ClassTree.Proofs.Bytes
import ClassTree.Proofs.Encoding.Steady

namespace ClassTree.Encoding

open Encoder

namespace Layout

/-! ## Offsets -/

/-- The offsets of items with these rooms, the first one at `offset`, and that of the end. -/
def startsFrom (offset : Nat) : List (Room × Bool) → List Nat
  | [] => [offset]
  | (room, isFar) :: rest => offset :: startsFrom (offset + room.size offset isFar) rest

theorem toList_offsetsFrom (offset : Nat) (rooms : List (Room × Bool)) (acc : Array Nat) :
    (offsetsFrom offset rooms acc).toList = acc.toList ++ startsFrom offset rooms := by
  induction rooms generalizing offset acc with
  | nil => simp [offsetsFrom, startsFrom]
  | cons room rooms ih =>
    obtain ⟨room, isFar⟩ := room
    rw [offsetsFrom, ih, startsFrom]
    simp

theorem startsFrom_zero (offset : Nat) (rooms : List (Room × Bool)) :
    (startsFrom offset rooms)[0]? = some offset := by
  cases rooms with
  | nil => rfl
  | cons room rooms => rfl

theorem length_startsFrom (offset : Nat) (rooms : List (Room × Bool)) :
    (startsFrom offset rooms).length = rooms.length + 1 := by
  induction rooms generalizing offset with
  | nil => rfl
  | cons room rooms ih => exact congrArg Nat.succ (ih _)

/-- The next item stands where the room of an item ends. -/
theorem startsFrom_succ {offset : Nat} {rooms : List (Room × Bool)} {index : Nat} {room : Room}
    {isFar : Bool} (h : rooms[index]? = some (room, isFar)) :
    ∃ start, (startsFrom offset rooms)[index]? = some start ∧
      (startsFrom offset rooms)[index + 1]? = some (start + room.size start isFar) := by
  induction rooms generalizing offset index with
  | nil => cases h
  | cons head rooms ih =>
    obtain ⟨room', isFar'⟩ := head
    cases index with
    | zero =>
      rw [List.getElem?_cons_zero, Option.some.injEq, Prod.mk.injEq] at h
      obtain ⟨rfl, rfl⟩ := h
      exact ⟨offset, rfl, startsFrom_zero _ _⟩
    | succ index => exact ih h

variable {body : List Item} {rooms : List Room} {far : List Bool}

theorem offset_place (index : Nat) :
    (place body rooms far).offset index = (startsFrom 0 (rooms.zip far))[index]?.getD 0 := by
  unfold offset place
  simp only
  rw [Array.getD_eq_getD_getElem?, ← Array.getElem?_toList, toList_offsetsFrom]
  rfl

theorem offset_zero : (place body rooms far).offset 0 = 0 := by
  rw [offset_place, startsFrom_zero]
  rfl

/-- The next item stands where the room of an item ends. -/
theorem offset_succ {index : Nat} {room : Room} {isFar : Bool} (hroom : rooms[index]? = some room)
    (hfar : far[index]? = some isFar) :
    (place body rooms far).offset (index + 1) = (place body rooms far).offset index +
      room.size ((place body rooms far).offset index) isFar := by
  have hzip : (rooms.zip far)[index]? = some (room, isFar) := by
    rw [List.getElem?_zip_eq_some]
    exact ⟨hroom, hfar⟩
  obtain ⟨start, hstart, hnext⟩ := startsFrom_succ hzip
  rw [offset_place, offset_place, hstart, hnext]
  rfl

theorem isFar_place (index : Nat) : (place body rooms far).isFar index = far[index]?.getD false := by
  unfold isFar place
  simp

/-! ## Relaxing -/

theorem length_grow (items : Array Item) (l : Layout) (far : List Bool) :
    (l.grow items far).length = far.length := by
  unfold grow
  simp

/-- A layout is done when no jump has to become far any more. -/
theorem exists_relax_eq (body : List Item) (rooms : List Room) (far : List Bool) :
    ∃ grown, relax body rooms far = place body rooms grown ∧ grown.length = far.length ∧
      (place body rooms grown).grow body.toArray grown = grown := by
  induction far using relax.induct body rooms with
  | case1 far layout grown hdone =>
    refine ⟨far, ?_, rfl, hdone⟩
    rw [relax]
    exact dif_pos hdone
  | case2 far layout grown hnot ih =>
    obtain ⟨found, hfound, hlength, hdone⟩ := ih
    refine ⟨found, ?_, hlength.trans (length_grow _ _ _), hdone⟩
    rw [relax, ← hfound]
    exact dif_neg hnot

/-- A jump of a layout that is done reaches its target unless it is far. -/
theorem not_overreaches {l : Layout} (h : l.grow body.toArray far = far) {index : Nat} {item : Item}
    (hitem : body[index]? = some item) (hfar : far[index]? = some false) :
    l.overreaches index item = false := by
  have hat : (l.grow body.toArray far)[index]? = some false := by rw [h, hfar]
  unfold grow at hat
  rw [List.getElem?_map, List.getElem?_zipIdx, hfar] at hat
  simpa [hitem] using hat

/-! ## Rooms -/

/-- The layout of a body, with all that the pool has. -/
theorem fixed_of {P : Pool} {l : Layout} (h : Fixed P (Layout.of body) l) :
    ∃ rooms far, Fixed P (roomsOf body) rooms ∧ far.length = body.length ∧
      l = place body rooms far ∧ l.grow body.toArray far = far := by
  unfold Layout.of at h
  simp only [fixed_bind_iff, fixed_pure_iff] at h
  obtain ⟨rooms, hrooms, rfl⟩ := h
  obtain ⟨far, hrelax, hlength, hdone⟩ := exists_relax_eq body rooms (body.map fun _ => false)
  exact ⟨rooms, far, hrooms, by simpa using hlength, hrelax, hrelax ▸ hdone⟩

/-- The room of an item. -/
def roomOfItem : Item → Encoder Room
  | .instruction i => roomOf i
  | _ => return .marker

instance steady_roomOfItem (item : Item) : Steady (roomOfItem item) := by
  unfold roomOfItem
  split <;> infer_instance

/-- The rooms of a body are those of its items. -/
theorem fixed_roomsOf_iff {P : Pool} {rooms : List Room} :
    Fixed P (roomsOf body) rooms ↔
      List.Forall₂ (fun item room => Fixed P (roomOfItem item) room) body rooms := by
  have heq : roomsOf body = body.mapM roomOfItem := by
    unfold roomsOf
    congr 1
  rw [heq, fixed_mapM_iff]

end Layout

/-! ## What an instruction takes -/

/-- A switch over single keys has a key for each target. -/
def HasKeys {τ : Type} : Instruction τ → Prop
  | .lookupSwitch _ keys targets => targets.length ≤ keys.length
  | _ => True

theorem length_of_unsigned? {width : Nat} {n : Int} {bytes : Bytes}
    (h : Bytes.unsigned? width n = some bytes) : bytes.length = width :=
  (Bytes.unsigned?_eq_some_iff.1 h).1

theorem length_of_signed? {width : Nat} {n : Int} {bytes : Bytes}
    (h : Bytes.signed? (width + 1) n = some bytes) : bytes.length = width + 1 :=
  (Bytes.signed?_eq_some_iff.1 h).1

theorem length_flatten_of_forall₂ {α : Type} {R : α → Bytes → Prop} {size : Nat}
    (hsize : ∀ {a part}, R a part → part.length = size) {things : List α} {parts : List Bytes}
    (h : List.Forall₂ R things parts) : parts.flatten.length = size * things.length := by
  induction h with
  | nil => rfl
  | cons hpart _ ih =>
    rw [List.flatten_cons, List.length_append, ih, hsize hpart, List.length_cons, Nat.mul_succ,
      Nat.add_comm]

variable {P : Pool}

/-- The bytes of a constant that is loaded. -/
theorem length_loadConstant {op : Opcode} {v : Constant} {room : Room}
    (hroom : Fixed P (roomOf (.constant op v)) room) {bytes : Bytes}
    (h : Fixed P (loadConstant op v) bytes) (offset : Nat) (isFar : Bool) :
    bytes.length = room.size offset isFar := by
  unfold loadConstant at h
  rw [fixed_bind_iff] at h
  obtain ⟨i, hi, h⟩ := h
  rw [roomOf] at hroom
  by_cases hop : op = .ldc
  · rw [if_pos hop, fixed_bind_iff] at hroom
    obtain ⟨i', hi', hroom⟩ := hroom
    obtain rfl := hi.unique hi'
    rw [fixed_pure_iff] at hroom
    subst hroom
    split at h
    · next hshort =>
      simp only [fixed_bind_iff, fixed_u1_iff, fixed_pure_iff] at h
      obtain ⟨operand, hoperand, rfl⟩ := h
      simp [Room.size, hshort.2, length_of_unsigned? hoperand]
    · next hlong =>
      simp only [fixed_bind_iff, fixed_u2_iff, fixed_pure_iff] at h
      obtain ⟨operand, hoperand, rfl⟩ := h
      have hlarge : ¬ i ≤ maxByte := fun hle => hlong ⟨hop, hle⟩
      simp [Room.size, hlarge, length_of_unsigned? hoperand]
  · rw [if_neg hop, fixed_pure_iff] at hroom
    subst hroom
    rw [if_neg (fun hand => hop hand.1)] at h
    simp only [fixed_bind_iff, fixed_u2_iff, fixed_pure_iff] at h
    obtain ⟨operand, hoperand, rfl⟩ := h
    simp [Room.size, length_of_unsigned? hoperand]

theorem length_jump {op : Opcode} {isFar : Bool} {distance : Int} {bytes : Bytes}
    (h : Fixed P (jump op isFar distance) bytes) :
    bytes.length = if op.isFar then 5 else if isFar then (if op.isConditional then 8 else 5)
      else 3 := by
  unfold jump at h
  split at h
  · next hop =>
    simp only [fixed_bind_iff, fixed_s4_iff, fixed_pure_iff] at h
    obtain ⟨operand, hoperand, rfl⟩ := h
    simp [hop, length_of_signed? hoperand]
  · next hop =>
    rw [if_neg hop]
    split at h
    · next hfar =>
      rw [if_pos hfar]
      unfold Opcode.isConditional
      split at h
      · next opposite hopposite =>
        simp only [fixed_bind_iff, fixed_s2_iff, fixed_s4_iff, fixed_pure_iff] at h
        obtain ⟨skip, hskip, operand, hoperand, rfl⟩ := h
        simp [hopposite, length_of_signed? hskip, length_of_signed? hoperand]
      · next hopposite =>
        simp only [fixed_bind_iff, fixed_s4_iff, fixed_pure_iff] at h
        obtain ⟨operand, hoperand, rfl⟩ := h
        simp [hopposite, length_of_signed? hoperand]
    · next hfar =>
      simp only [fixed_bind_iff, fixed_s2_iff, fixed_pure_iff] at h
      obtain ⟨operand, hoperand, rfl⟩ := h
      simp [hfar, length_of_signed? hoperand]

/-- The operand of an instruction that has its number at hand. -/
def immediateOperand (op : Opcode) (n : Int) : Encoder Bytes :=
  if op = .bipush then s1 n else if op = .sipush then s2 n else u1 n

instance steady_immediateOperand (op : Opcode) (n : Int) : Steady (immediateOperand op n) := by
  unfold immediateOperand
  infer_instance

/-- An instruction that has its number at hand is its code and its operand. -/
theorem operation_immediate (offset : Nat) (isFar : Bool) (op : Opcode) (n : Int) :
    operation offset isFar (.immediate op n) =
      (do return codeByte op :: (← immediateOperand op n)) := by
  unfold immediateOperand
  by_cases hbyte : op = .bipush
  · subst hbyte
    rfl
  · by_cases hshort : op = .sipush
    · subst hshort
      rfl
    · rw [if_neg hbyte, if_neg hshort]
      exact operation.eq_4 _ _ _ _ hbyte hshort

theorem length_immediateOperand {op : Opcode} {n : Int} {bytes : Bytes}
    (h : Fixed P (immediateOperand op n) bytes) : bytes.length = if op = .sipush then 2 else 1 := by
  unfold immediateOperand at h
  split at h
  · next hbyte =>
    subst hbyte
    exact length_of_signed? (fixed_s1_iff.1 h)
  · split at h
    · next hshort =>
      rw [if_pos hshort]
      exact length_of_signed? (fixed_s2_iff.1 h)
    · next hshort =>
      rw [if_neg hshort]
      exact length_of_unsigned? (fixed_u1_iff.1 h)

/-- The code of a switch and the blanks behind it. -/
theorem length_alignedCode (op : Opcode) (offset : Nat) :
    (alignedCode op offset).length = 1 + Bytes.padding offset := by
  simp [alignedCode, Nat.add_comm]

/-- An instruction takes the room that it has been given. -/
theorem length_operation {f : Label → Encoder Int} [∀ l, Steady (f l)] {i : Instruction Label}
    {placed : Instruction Int} (hplaced : Fixed P (i.mapTargets f) placed) (hkeys : HasKeys i)
    {room : Room} (hroom : Fixed P (roomOf i) room) {offset : Nat} {isFar : Bool} {bytes : Bytes}
    (h : Fixed P (operation offset isFar placed) bytes) :
    bytes.length = room.size offset isFar := by
  cases i with
  | constant op v =>
    unfold Instruction.mapTargets at hplaced
    rw [fixed_pure_iff] at hplaced
    subst hplaced
    exact length_loadConstant hroom h offset isFar
  | jump op target =>
    simp only [Instruction.mapTargets, fixed_bind_iff, fixed_pure_iff] at hplaced
    obtain ⟨t, -, rfl⟩ := hplaced
    simp only [roomOf, fixed_pure_iff] at hroom
    subst hroom
    rw [length_jump h]
    split <;> simp [Room.size]
  | tableSwitch low high otherwise targets =>
    simp only [Instruction.mapTargets, fixed_bind_iff, fixed_mapM_iff, fixed_pure_iff] at hplaced
    obtain ⟨d, -, ts, hts, rfl⟩ := hplaced
    simp only [roomOf, fixed_pure_iff] at hroom
    subst hroom
    simp only [operation, fixed_bind_iff, fixed_s4_iff, fixed_all_iff, fixed_pure_iff] at h
    obtain ⟨d', hd, low', hlow, high', hhigh, _, ⟨parts, hparts, rfl⟩, rfl⟩ := h
    -- placing keeps the number of targets, and each of them takes four bytes
    have hall := length_flatten_of_forall₂ (fun h => length_of_signed? h) hparts
    simp only [List.length_append, length_alignedCode, length_of_signed? hd,
      length_of_signed? hlow, length_of_signed? hhigh, hall, ← hts.length_eq, Room.size]
    omega
  | lookupSwitch otherwise keys targets =>
    simp only [Instruction.mapTargets, fixed_bind_iff, fixed_mapM_iff, fixed_pure_iff] at hplaced
    obtain ⟨d, -, ts, hts, rfl⟩ := hplaced
    simp only [roomOf, fixed_pure_iff] at hroom
    subst hroom
    simp only [operation, fixed_bind_iff, fixed_s4_iff, fixed_all_iff, fixed_pure_iff] at h
    obtain ⟨d', hd, count, hcount, _, ⟨parts, hparts, rfl⟩, rfl⟩ := h
    have hpair {key t : Int} {part : Bytes}
        (h : ∃ k, Bytes.signed? 4 key = some k ∧ ∃ o, Bytes.signed? 4 (t - offset) = some o ∧
          part = k ++ o) : part.length = 8 := by
      obtain ⟨k, hk, o, ho, rfl⟩ := h
      rw [List.length_append, length_of_signed? hk, length_of_signed? ho]
    have hall := length_flatten_of_forall₂ (fun h => hpair h) hparts
    -- pairing stops at the shorter list, so no target may be without a key
    have hlength : targets.length ≤ keys.length := hkeys
    simp only [List.length_append, length_alignedCode, length_of_signed? hd,
      length_of_signed? hcount, hall, List.length_zip, ← hts.length_eq, Nat.min_eq_right hlength,
      Room.size]
    omega
  | plain op =>
    simp only [Instruction.mapTargets, roomOf, fixed_pure_iff] at hplaced hroom
    subst hplaced hroom
    simp only [operation, fixed_pure_iff] at h
    subst h
    rfl
  | immediate op n =>
    simp only [Instruction.mapTargets, roomOf, fixed_pure_iff] at hplaced hroom
    subst hplaced hroom
    simp only [operation_immediate, fixed_bind_iff, fixed_pure_iff] at h
    obtain ⟨operand, hoperand, rfl⟩ := h
    rw [List.length_cons, length_immediateOperand hoperand, Room.size]
    split <;> rfl
  | «variable» op slot =>
    simp only [Instruction.mapTargets, roomOf, fixed_pure_iff] at hplaced hroom
    subst hplaced hroom
    rw [operation] at h
    split at h
    · next hshort =>
      simp only [fixed_bind_iff, fixed_u1_iff, fixed_pure_iff] at h
      obtain ⟨operand, hoperand, rfl⟩ := h
      simp [Room.size, hshort, length_of_unsigned? hoperand]
    · next hlong =>
      simp only [fixed_bind_iff, fixed_u2_iff, fixed_pure_iff] at h
      obtain ⟨operand, hoperand, rfl⟩ := h
      simp [Room.size, hlong, length_of_unsigned? hoperand]
  | increment slot amount =>
    simp only [Instruction.mapTargets, roomOf, fixed_pure_iff] at hplaced hroom
    subst hplaced hroom
    rw [operation] at h
    split at h
    · next hshort =>
      simp only [fixed_bind_iff, fixed_u1_iff, fixed_s1_iff, fixed_pure_iff] at h
      obtain ⟨operand, hoperand, operand', hoperand', rfl⟩ := h
      simp [Room.size, hshort, length_of_unsigned? hoperand, length_of_signed? hoperand']
    · next hlong =>
      simp only [fixed_bind_iff, fixed_u2_iff, fixed_s2_iff, fixed_pure_iff] at h
      obtain ⟨operand, hoperand, operand', hoperand', rfl⟩ := h
      simp [Room.size, hlong, length_of_unsigned? hoperand, length_of_signed? hoperand']
  | type op name | field op owner name descriptor =>
    simp only [Instruction.mapTargets, roomOf, fixed_pure_iff] at hplaced hroom
    subst hplaced hroom
    simp only [operation, fixed_bind_iff, fixed_index_iff, fixed_pure_iff] at h
    obtain ⟨operand, ⟨i, -, hoperand⟩, rfl⟩ := h
    simp [Room.size, length_of_unsigned? hoperand]
  | method op owner name descriptor interface =>
    simp only [Instruction.mapTargets, roomOf, fixed_pure_iff] at hplaced hroom
    subst hplaced hroom
    rw [operation, call] at h
    rw [fixed_bind_iff] at h
    obtain ⟨operand, hindex, h⟩ := h
    obtain ⟨i, -, hoperand⟩ := fixed_index_iff.1 hindex
    split at h
    · next hop =>
      simp only [fixed_bind_iff, fixed_lift_iff, fixed_u1_iff, fixed_pure_iff] at h
      obtain ⟨arguments, -, count, hcount, rfl⟩ := h
      simp [Room.size, hop, length_of_unsigned? hoperand, length_of_unsigned? hcount]
    · next hop =>
      rw [fixed_pure_iff] at h
      subst h
      simp [Room.size, hop, length_of_unsigned? hoperand]
  | callSite name descriptor bootstrap arguments =>
    simp only [Instruction.mapTargets, roomOf, fixed_pure_iff] at hplaced hroom
    subst hplaced hroom
    simp only [operation, callSite, fixed_bind_iff, fixed_index_iff, fixed_pure_iff] at h
    obtain ⟨_, -, _, -, _, -, operand, ⟨i, -, hoperand⟩, rfl⟩ := h
    simp [Room.size, length_of_unsigned? hoperand]
  | multiArray descriptor dimensions =>
    simp only [Instruction.mapTargets, roomOf, fixed_pure_iff] at hplaced hroom
    subst hplaced hroom
    simp only [operation, fixed_bind_iff, fixed_index_iff, fixed_u1_iff, fixed_pure_iff] at h
    obtain ⟨operand, ⟨i, -, hoperand⟩, count, hcount, rfl⟩ := h
    simp [Room.size, length_of_unsigned? hoperand, length_of_unsigned? hcount]

theorem fixed_naming_iff {op : Opcode} {place : Text} {position : Nat} {e : Encoder Bytes}
    {bytes : Bytes} : Fixed P (naming op place position e) bytes ↔ Fixed P e bytes :=
  naming_eq_ok_iff

/-- An item is written at its offset and takes its room. -/
theorem length_item {l : Layout} {place : Text} {position : Nat} {item : Item} {room : Room}
    (hroom : Fixed P (Layout.roomOfItem item) room)
    (hkeys : ∀ i, item = .instruction i → HasKeys i) {bytes : Bytes}
    (h : Fixed P (Encoding.item l place position item) bytes) :
    bytes.length = room.size (l.offset position) (l.isFar position) := by
  unfold Encoding.item at h
  unfold Layout.roomOfItem at hroom
  cases item with
  | instruction i =>
    simp only [fixed_bind_iff, fixed_naming_iff] at h
    obtain ⟨placed, hplaced, h⟩ := h
    exact length_operation hplaced (hkeys i rfl) hroom h
  | _ =>
    rw [fixed_pure_iff] at h hroom
    subst h hroom
    rfl

/-- The offset of an item is the length of what is written before it. -/
theorem offset_eq_length {l : Layout} {place : Text} {body : List Item}
    (hl : Fixed P (Layout.of body) l) (hkeys : ∀ i, Item.instruction i ∈ body → HasKeys i)
    {parts : List Bytes} (h : List.Forall₂
      (fun (p : Item × Nat) part => Fixed P (item l place p.2 p.1) part) body.zipIdx parts)
    {index : Nat} (hindex : index ≤ body.length) :
    l.offset index = (parts.take index).flatten.length := by
  obtain ⟨rooms, far, hrooms, hfar, rfl, -⟩ := Layout.fixed_of hl
  rw [Layout.fixed_roomsOf_iff] at hrooms
  induction index with
  | zero => rw [Layout.offset_zero, List.take_zero, List.flatten_nil, List.length_nil]
  | succ index ih =>
    have hlt : index < body.length := hindex
    have hrl : index < rooms.length := hrooms.length_eq ▸ hlt
    have hpl : index < parts.length := by
      rw [← h.length_eq, List.length_zipIdx]
      exact hlt
    have hfl : index < far.length := hfar ▸ hlt
    have hroom := hrooms.get hlt hrl
    have hpart := h.get (by rwa [List.length_zipIdx]) hpl
    simp only [List.get_eq_getElem, List.getElem_zipIdx, Nat.zero_add] at hroom hpart
    have hlength := length_item hroom
      (fun i hi => hkeys i (hi ▸ List.getElem_mem hlt)) hpart
    rw [Layout.offset_succ (List.getElem?_eq_getElem hrl) (List.getElem?_eq_getElem hfl),
      ih (by omega), List.take_add_one, List.getElem?_eq_getElem hpl]
    simp only [Option.toList_some, List.flatten_append, List.flatten_singleton,
      List.length_append]
    rw [hlength, ih (by omega), Layout.isFar_place, List.getElem?_eq_getElem hfl]
    rfl

end ClassTree.Encoding
